import GraphQL.Proofs.Schema.Rewriting
import GraphQL.Proofs.Text.Description
import GraphQL.Proofs.Value.Literal

/-!
# Declarations that can be written

Not every declaration that can be built can be read from a text: names have to be names, and a description of several
lines is a block string. `TypeDecl.Writable` and `DirectiveDecl.Writable` tell which declarations a schema text can
say. The text says everything about them except where they were declared, and which of the types that they refer to
existed then; `TypeDecl.unplaced` and `DirectiveDecl.unplaced` are what remains.
-/

namespace GraphQL

/-! ### Declarations without positions -/

namespace TypeRef

/-- The reference without the position of a name that was not known. -/
def unplaced : TypeRef → TypeRef
  | named name => named name
  | unresolved name _ => unresolved name .start
  | list item => list item.unplaced
  | nonNull inner => nonNull inner.unplaced

/-- The reference as it is read where the types of a schema are known, without positions. -/
def seenIn (schema : Schema) : TypeRef → TypeRef
  | named name => Parser.namedRef schema name .start
  | unresolved name _ => Parser.namedRef schema name .start
  | list item => list (item.seenIn schema)
  | nonNull inner => nonNull (inner.seenIn schema)

theorem unplaced_namedRef (schema : Schema) (name : String) (pos : Pos) :
    (Parser.namedRef schema name pos).unplaced = Parser.namedRef schema name .start := by
  unfold Parser.namedRef
  split <;> rfl

end TypeRef

/-- The use without its position. -/
def DirectiveUse.unplaced (use : DirectiveUse) : DirectiveUse := { use with pos := .start }

section Unplaced

variable (ref : TypeRef → TypeRef)

/-- The argument without positions, and with another reference to its type. -/
def InputValue.unplaced (value : InputValue) : InputValue :=
  { value with type := ref value.type, directives := value.directives.map DirectiveUse.unplaced, pos := .start }

/-- The field without positions, and with other references. -/
def FieldDef.unplaced (field : FieldDef) : FieldDef :=
  { field with
    type := ref field.type
    args := field.args.map (InputValue.unplaced ref)
    directives := field.directives.map DirectiveUse.unplaced
    pos := .start }

/-- The symbol without positions. -/
def EnumValue.unplaced (value : EnumValue) : EnumValue :=
  { value with directives := value.directives.map DirectiveUse.unplaced, pos := .start }

/-- The object or interface without positions, and with other references. -/
def ObjectBody.unplaced (body : ObjectBody) : ObjectBody where
  interfaces := body.interfaces.map ref
  fields := body.fields.map (FieldDef.unplaced ref)

/-- The root types with other references. -/
def SchemaRoots.unplaced (roots : SchemaRoots) : SchemaRoots where
  query := roots.query.map ref
  mutation := roots.mutation.map ref
  subscription := roots.subscription.map ref

/-- The body without positions, and with other references. -/
def TypeBody.unplaced : TypeBody → TypeBody
  | .scalar kind => .scalar kind
  | .object body => .object (body.unplaced ref)
  | .interface body => .interface (body.unplaced ref)
  | .union members => .union (members.map ref)
  | .enum values => .enum (values.map EnumValue.unplaced)
  | .input fields => .input (fields.map (InputValue.unplaced ref))
  | .schema roots => .schema (roots.unplaced ref)

/-- The declaration without positions, and with other references. -/
def TypeDecl.unplaced (decl : TypeDecl) : TypeDecl :=
  { decl with
    directives := decl.directives.map DirectiveUse.unplaced, pos := .start, body := decl.body.unplaced ref }

/-- The declaration without positions, and with other references. -/
def DirectiveDecl.unplaced (decl : DirectiveDecl) : DirectiveDecl :=
  { decl with args := decl.args.map (InputValue.unplaced ref), pos := .start }

/-- The declaration without positions, and with other references. -/
def Declaration.unplaced : Declaration → Declaration
  | .type decl => .type (decl.unplaced ref)
  | .directive decl => .directive (decl.unplaced ref)
  | .extension decl => .extension (decl.unplaced ref)

end Unplaced

/-! ### What can be written -/

/-- The value is built from `null`, booleans, integers, strings, symbols, variables, lists and objects, and these have
the form that they have in a text. -/
structure Value.Writable (v : Value) : Prop where
  legible : v.Legible
  plain : v.Plain

/-- The description reads back, if there is one. -/
def IsKeptDescription (description : Option String) : Prop := ∀ text ∈ description, SchemaText.IsKept text

theorem IsKeptDescription.none : IsKeptDescription none := fun _ h => (Option.not_mem_none _ h).elim

namespace TypeRef

/-- The reference is just a name. -/
def IsWord (type : TypeRef) : Prop := ∃ name, type.ownName? = some name ∧ IsName name

/-- No type is marked non-null twice, and names are names. -/
inductive Writable : TypeRef → Prop
  | named {name : String} (h : IsName name) : Writable (.named name)
  | unresolved {name : String} {pos : Pos} (h : IsName name) : Writable (.unresolved name pos)
  | list {item : TypeRef} (h : item.Writable) : Writable (.list item)
  | nonNull {inner : TypeRef} (h : inner.Writable) (hinner : inner.isNonNull = false) : Writable (.nonNull inner)

end TypeRef

structure DirectiveUse.Writable (use : DirectiveUse) : Prop where
  name : IsName use.name
  distinct : (Entries.keys use.args).Nodup
  args : ∀ arg ∈ use.args, IsName arg.1 ∧ arg.2.Writable

/-- The argument is writable. Its description may be any text, since it is never a block string. -/
structure InputValue.Writable (value : InputValue) : Prop where
  name : IsName value.name
  type : value.type.Writable
  default : ∀ v ∈ value.default, v.Writable
  directives : ∀ use ∈ value.directives, use.Writable

structure FieldDef.Writable (field : FieldDef) : Prop where
  name : IsName field.name
  description : IsKeptDescription field.description
  type : field.type.Writable
  distinct : Members.Distinct field.args
  args : ∀ arg ∈ field.args, arg.Writable
  directives : ∀ use ∈ field.directives, use.Writable

structure EnumValue.Writable (value : EnumValue) : Prop where
  name : IsName value.name
  description : IsKeptDescription value.description
  directives : ∀ use ∈ value.directives, use.Writable

structure ObjectBody.Writable (body : ObjectBody) : Prop where
  interfaces : ∀ type ∈ body.interfaces, type.IsWord
  distinct : Members.Distinct body.fields
  fields : ∀ field ∈ body.fields, field.Writable

/-- The body is writable. A text does not say how scalars are coerced: one that is new takes any value. -/
def TypeBody.Writable (schema : Schema) (name : String) : TypeBody → Prop
  | .scalar kind => kind = .any ∧ schema.scalar? name = none
  | .object body | .interface body => body.Writable
  | .union members => ∀ type ∈ members, type.IsWord
  | .enum values => Members.Distinct values ∧ ∀ value ∈ values, value.Writable
  | .input fields =>
    Members.Distinct fields ∧ ∀ field ∈ fields, field.Writable ∧ IsKeptDescription field.description
  | .schema roots => name = "schema" ∧ ∀ kind, ∀ type ∈ roots.root? kind, type.IsWord

/-- The declaration can be read from a text where the types of a schema are known. -/
structure TypeDecl.Writable (schema : Schema) (decl : TypeDecl) : Prop where
  name : IsName decl.name
  description : IsKeptDescription decl.description
  directives : ∀ use ∈ decl.directives, use.Writable
  declared : decl.builtin = false
  body : decl.body.Writable schema decl.name

structure DirectiveDecl.Writable (decl : DirectiveDecl) : Prop where
  name : IsName decl.name
  description : IsKeptDescription decl.description
  distinct : Members.Distinct decl.args
  args : ∀ arg ∈ decl.args, arg.Writable
  placed : decl.locations ≠ []
  places : decl.locations.Nodup
  declared : decl.builtin = false

/-- The declaration can be read from a text. A schema is never written with extensions. -/
def Declaration.Writable (schema : Schema) : Declaration → Prop
  | .type decl => decl.Writable schema
  | .directive decl => decl.Writable
  | .extension _ => False

/-! ### What a text says -/

/-- The value as its literal reads, if it reads at all. -/
def Value.readBack (v : Value) : Value := v.reread.getD v

/-- The literal of the value reads. -/
structure Value.Readable (v : Value) : Prop where
  legible : v.Legible
  reread : v.reread = some v.readBack

/-- The arguments as they are read. -/
def readBackArgs (args : List (String × Value)) : List (String × Value) := args.map fun arg => (arg.1, arg.2.readBack)

/-- Literals are written and read. -/
def Rewriting.readBack : Rewriting where
  use use := { use with args := readBackArgs use.args }
  literal _ v := v.readBack
  name_use _ := rfl

/-- A text for a schema can say it, where descriptions are `kept` and literals are `good`. -/
def Detail.Said (schema : Schema) (kept : String → Prop) (good : Value → Prop) : Detail → Prop
  | .name text => IsName text
  | .title text => text = "schema"
  | .description text => kept text
  | .scalar text kind => kind = (schema.scalar? text).getD .any
  | .type ref => ref.Writable
  | .word ref => ref.IsWord
  | .use u => IsName u.name ∧ (Entries.keys u.args).Nodup ∧ ∀ arg ∈ u.args, IsName arg.1 ∧ good arg.2
  | .default _ v => good v
  | .places locations => locations ≠ [] ∧ locations.Nodup

theorem Detail.Said.mono {schema : Schema} {kept kept' : String → Prop} {good good' : Value → Prop} {detail : Detail}
    (h : detail.Said schema kept good) (hkept : ∀ text, kept text → kept' text) (hgood : ∀ v, good v → good' v) :
    detail.Said schema kept' good' := by
  cases detail with
  | description text => exact hkept text h
  | use use => exact ⟨h.1, h.2.1, fun arg harg => ⟨(h.2.2 arg harg).1, hgood _ (h.2.2 arg harg).2⟩⟩
  | default type v => exact hgood v h
  | name _ | title _ | scalar _ _ | type _ | word _ | places _ => exact h

/-- The declaration reads from a text, but for its literals, which may become others. -/
structure TypeDecl.Readable (schema : Schema) (decl : TypeDecl) : Prop where
  details : ∀ detail ∈ decl.details, detail.Said schema SchemaText.IsKept Value.Readable
  distinct : decl.body.Distinct
  declared : decl.builtin = false

structure DirectiveDecl.Readable (schema : Schema) (decl : DirectiveDecl) : Prop where
  details : ∀ detail ∈ decl.details, detail.Said schema SchemaText.IsKept Value.Readable
  distinct : Members.Distinct decl.args
  declared : decl.builtin = false

/-- A text has the declaration, but for its literals, which may become others. -/
def Declaration.Readable (schema : Schema) : Declaration → Prop
  | .type decl => decl.Readable schema
  | .directive decl => decl.Readable schema
  | .extension _ => False

/-! ### From writable to readable -/

namespace Value

theorem Writable.readBack {v : Value} (h : v.Writable) : v.readBack = v := by
  rw [Value.readBack, reread_of_plain h.plain, Option.getD_some]

theorem Writable.readable {v : Value} (h : v.Writable) : v.Readable :=
  ⟨h.legible, by rw [h.readBack, reread_of_plain h.plain]⟩

end Value

section Writable

variable {schema : Schema}

/-- Writable literals are read as they are. -/
theorem Detail.Said.readBack {detail : Detail} {kept : String → Prop} (h : detail.Said schema kept Value.Writable) :
    Rewriting.readBack.detail detail = detail := by
  cases detail with
  | use use =>
    have hargs : readBackArgs use.args = use.args := map_eq_self_iff.2 fun arg harg => by
      rw [(h.2.2 arg harg).2.readBack]
    show Detail.use { use with args := readBackArgs use.args } = .use use
    rw [hargs]
  | default type v => exact congrArg (Detail.default type) (Value.Writable.readBack h)
  | name _ | title _ | description _ | scalar _ _ | type _ | word _ | places _ => rfl

private theorem DirectiveUse.Writable.said {use : DirectiveUse} (h : use.Writable) :
    (Detail.use use).Said schema SchemaText.IsKept Value.Writable :=
  ⟨h.name, h.distinct, h.args⟩

private theorem InputValue.Writable.said {value : InputValue} (h : value.Writable) :
    ∀ detail ∈ value.details, detail.Said schema SchemaText.IsKept Value.Writable :=
  InputValue.forall_details_iff.2 ⟨h.name, h.type, h.default, fun use huse => (h.directives use huse).said⟩

private theorem FieldDef.Writable.said {field : FieldDef} (h : field.Writable) :
    ∀ detail ∈ field.details, detail.Said schema SchemaText.IsKept Value.Writable :=
  FieldDef.forall_details_iff.2 ⟨h.name, h.type, h.description, fun arg harg => (h.args arg harg).said,
    fun use huse => (h.directives use huse).said⟩

private theorem EnumValue.Writable.said {value : EnumValue} (h : value.Writable) :
    ∀ detail ∈ value.details, detail.Said schema SchemaText.IsKept Value.Writable :=
  EnumValue.forall_details_iff.2 ⟨h.name, h.description, fun use huse => (h.directives use huse).said⟩

private theorem ObjectBody.Writable.said {body : ObjectBody} (h : body.Writable) :
    ∀ detail ∈ body.details, detail.Said schema SchemaText.IsKept Value.Writable :=
  ObjectBody.forall_details_iff.2 ⟨h.interfaces, fun field hfield => (h.fields field hfield).said⟩

private theorem TypeBody.Writable.said {body : TypeBody} {name : String} (hname : IsName name)
    (h : body.Writable schema name) :
    ∀ detail ∈ body.details name, detail.Said schema SchemaText.IsKept Value.Writable := by
  cases body with
  | scalar kind => exact List.forall_mem_cons.2 ⟨hname, List.forall_mem_singleton.2 (by simp [Detail.Said, h.1, h.2])⟩
  | object body | interface body => exact List.forall_mem_cons.2 ⟨hname, ObjectBody.Writable.said h⟩
  | union members => exact List.forall_mem_cons.2 ⟨hname, List.forall_mem_map.2 h⟩
  | enum values =>
    exact List.forall_mem_cons.2
      ⟨hname, List.forall_mem_flatMap.2 fun value hvalue => (h.2 value hvalue).said⟩
  | input fields =>
    exact List.forall_mem_cons.2 ⟨hname, List.forall_mem_flatMap.2 fun field hfield =>
      InputValue.forall_fieldDetails_iff.2 ⟨(h.2 field hfield).2, (h.2 field hfield).1.said⟩⟩
  | schema roots =>
    refine List.forall_mem_cons.2 ⟨h.1, List.forall_mem_map.2 fun type htype => ?_⟩
    simp only [SchemaRoots.types, List.mem_append, Option.mem_toList, or_assoc] at htype
    rcases htype with htype | htype | htype
    · exact h.2 .query type htype
    · exact h.2 .mutation type htype
    · exact h.2 .subscription type htype

private theorem TypeBody.Writable.distinct {body : TypeBody} {name : String} (h : body.Writable schema name) :
    body.Distinct := by
  cases body with
  | object body | interface body =>
    exact ⟨ObjectBody.Writable.distinct h, fun field hfield => (ObjectBody.Writable.fields h field hfield).distinct⟩
  | enum values | input fields => exact h.1
  | scalar _ | union _ | schema _ => trivial

private theorem Declaration.Writable.said {d : Declaration} (h : d.Writable schema) :
    ∀ detail ∈ d.details, detail.Said schema SchemaText.IsKept Value.Writable := by
  cases d with
  | type decl =>
    exact TypeDecl.forall_details_iff.2
      ⟨h.description, fun use huse => (h.directives use huse).said, h.body.said h.name⟩
  | directive decl =>
    exact DirectiveDecl.forall_details_iff.2
      ⟨h.name, ⟨h.placed, h.places⟩, h.description, fun arg harg => (h.args arg harg).said⟩
  | extension decl => cases h

theorem Declaration.Writable.readable {d : Declaration} (h : d.Writable schema) : d.Readable schema := by
  have hdetails (detail : Detail) (hdetail : detail ∈ d.details) :
      detail.Said schema SchemaText.IsKept Value.Readable :=
    (h.said detail hdetail).mono (fun _ => id) fun _ => Value.Writable.readable
  cases d with
  | type decl => exact ⟨hdetails, h.body.distinct, h.declared⟩
  | directive decl => exact ⟨hdetails, h.distinct, h.declared⟩
  | extension decl => cases h

/-- Writable declarations are read as they are. -/
theorem Declaration.Writable.readBack {d : Declaration} (h : d.Writable schema) :
    Rewriting.readBack.declaration d = d :=
  Rewriting.declaration_eq_self fun detail hdetail => (h.said detail hdetail).readBack

end Writable

/-! ### Lines -/

/-- The lines of a declaration in a schema text, which has none for extensions. -/
def Declaration.lines (layout : SchemaLayout) : Declaration → String
  | .type decl => SchemaText.type layout decl
  | .directive decl => SchemaText.directive layout decl
  | .extension _ => ""

end GraphQL
