import GraphQL.Proofs.Schema.Details
import GraphQL.Schema.Normal

/-!
# Schemas with other literals

A `Rewriting` puts other literals in place of those that stand in a schema: other values for its defaults, and other
arguments for the directives that it uses. Bringing a schema into normal form is one. Names and references stay as they
are, so no rewriting changes how types hang together (`Schema.implements_rewritten`, `Schema.isSubtype_rewritten`).
-/

namespace GraphQL

/-- What becomes of the uses of directives and of the defaults of a schema. -/
structure Rewriting where
  use : DirectiveUse → DirectiveUse
  /-- What becomes of a default of an argument or input field of the given type. -/
  literal : TypeRef → Value → Value
  name_use : ∀ old, (use old).name = old.name

namespace Rewriting

section Definitions

variable (r : Rewriting)

def input (value : InputValue) : InputValue :=
  { value with
    directives := value.directives.map r.use
    default := value.default.map (r.literal value.type) }

def field (field : FieldDef) : FieldDef :=
  { field with
    directives := field.directives.map r.use
    args := field.args.map r.input }

def symbol (value : EnumValue) : EnumValue := { value with directives := value.directives.map r.use }

def body : TypeBody → TypeBody
  | .object body => .object { body with fields := body.fields.map r.field }
  | .interface body => .interface { body with fields := body.fields.map r.field }
  | .enum values => .enum (values.map r.symbol)
  | .input fields => .input (fields.map r.input)
  | body => body

def type (type : TypeDecl) : TypeDecl :=
  { type with directives := type.directives.map r.use, body := r.body type.body }

def directive (decl : DirectiveDecl) : DirectiveDecl := { decl with args := decl.args.map r.input }

def declaration : Declaration → Declaration
  | .type decl => .type (r.type decl)
  | .directive decl => .directive (r.directive decl)
  | .extension decl => .extension (r.type decl)

/-- What becomes of something that a declaration says. -/
def detail : Detail → Detail
  | .use use => .use (r.use use)
  | .default type v => .default type (r.literal type v)
  | detail => detail

end Definitions

/-! ### What rewritten declarations say -/

section Details

variable (r : Rewriting)

private theorem details_uses (uses : List DirectiveUse) :
    (uses.map r.use).map Detail.use = (uses.map Detail.use).map r.detail := by
  rw [List.map_map, List.map_map]
  rfl

private theorem details_description (description : Option String) :
    (description.toList.map Detail.description).map r.detail = description.toList.map Detail.description := by
  rw [List.map_map]
  rfl

private theorem details_words (types : List TypeRef) :
    (types.map Detail.word).map r.detail = types.map Detail.word := by
  rw [List.map_map]
  rfl

/-- What rewritten members say is what becomes of what they say. -/
private theorem details_members {α : Type} {said : α → List Detail} {rewritten : α → α}
    (h : ∀ a, said (rewritten a) = (said a).map r.detail) (members : List α) :
    (members.map rewritten).flatMap said = (members.flatMap said).map r.detail := by
  rw [List.flatMap_map, List.map_flatMap]
  simp only [h]

private theorem details_input (value : InputValue) : (r.input value).details = value.details.map r.detail := by
  have hdefault : (value.default.map (r.literal value.type)).toList.map (Detail.default value.type) =
      (value.default.toList.map (Detail.default value.type)).map r.detail := by
    cases value.default <;> rfl
  simp only [input, InputValue.details, details_uses, hdefault, List.map_cons, List.map_append]
  rfl

private theorem details_field (field : FieldDef) : (r.field field).details = field.details.map r.detail := by
  simp only [Rewriting.field, FieldDef.details, details_uses, details_members r r.details_input, List.map_cons,
    List.map_append, details_description]
  rfl

private theorem details_symbol (value : EnumValue) : (r.symbol value).details = value.details.map r.detail := by
  simp only [symbol, EnumValue.details, details_uses, List.map_cons, List.map_append, details_description]
  rfl

private theorem fieldDetails_input (field : InputValue) :
    (r.input field).fieldDetails = field.fieldDetails.map r.detail := by
  simp only [InputValue.fieldDetails, details_input, List.map_append, details_description]
  rfl

private theorem details_body (owner : String) (body : TypeBody) :
    (r.body body).details owner = (body.details owner).map r.detail := by
  cases body with
  | scalar _ => rfl
  | object body | interface body =>
    simp only [Rewriting.body, TypeBody.details, ObjectBody.details, details_members r r.details_field, List.map_cons,
      List.map_append, details_words]
    rfl
  | enum values =>
    simp only [Rewriting.body, TypeBody.details, details_members r r.details_symbol, List.map_cons]
    rfl
  | input fields =>
    simp only [Rewriting.body, TypeBody.details, details_members r r.fieldDetails_input, List.map_cons]
    rfl
  | union _ | schema _ =>
    simp only [Rewriting.body, TypeBody.details, List.map_cons, details_words]
    rfl

theorem details_type (type : TypeDecl) : (r.type type).details = type.details.map r.detail := by
  simp only [Rewriting.type, TypeDecl.details, details_uses, details_body, List.map_append, details_description]

theorem details_directive (decl : DirectiveDecl) : (r.directive decl).details = decl.details.map r.detail := by
  simp only [directive, DirectiveDecl.details, details_members r r.details_input, List.map_cons, List.map_append,
    details_description]
  rfl

end Details

/-! ### Rewritings that change nothing -/

section Fixed

variable {r : Rewriting}

private theorem input_eq_self {value : InputValue} (h : ∀ detail ∈ value.details, r.detail detail = detail) :
    r.input value = value := by
  obtain ⟨-, -, hdefault, huses⟩ := InputValue.forall_details_iff.1 h
  have huses : value.directives.map r.use = value.directives :=
    map_eq_self_iff.2 fun use huse => Detail.use.inj (huses use huse)
  have hdefault : value.default.map (r.literal value.type) = value.default := by
    cases hv : value.default with
    | none => rfl
    | some v => exact congrArg some (Detail.default.inj (hdefault v hv)).2
  rw [input, huses, hdefault]

private theorem field_eq_self {field : FieldDef} (h : ∀ detail ∈ field.details, r.detail detail = detail) :
    r.field field = field := by
  obtain ⟨-, -, -, hargs, huses⟩ := FieldDef.forall_details_iff.1 h
  have huses : field.directives.map r.use = field.directives :=
    map_eq_self_iff.2 fun use huse => Detail.use.inj (huses use huse)
  rw [Rewriting.field, huses, map_eq_self_iff.2 fun arg harg => input_eq_self (hargs arg harg)]

private theorem symbol_eq_self {value : EnumValue} (h : ∀ detail ∈ value.details, r.detail detail = detail) :
    r.symbol value = value := by
  obtain ⟨-, -, huses⟩ := EnumValue.forall_details_iff.1 h
  rw [symbol, map_eq_self_iff.2 fun use huse => Detail.use.inj (huses use huse)]

private theorem body_eq_self {owner : String} {body : TypeBody}
    (h : ∀ detail ∈ body.details owner, r.detail detail = detail) : r.body body = body := by
  have hfields {body : ObjectBody} (h : ∀ detail ∈ body.details, r.detail detail = detail) :
      body.fields.map r.field = body.fields :=
    map_eq_self_iff.2 fun field hfield => field_eq_self ((ObjectBody.forall_details_iff.1 h).2 field hfield)
  cases body with
  | scalar _ | union _ | schema _ => rfl
  | object body | interface body => rw [Rewriting.body, hfields (List.forall_mem_cons.1 h).2]
  | enum values =>
    have hvalues := List.forall_mem_flatMap.1 (List.forall_mem_cons.1 h).2
    rw [Rewriting.body, map_eq_self_iff.2 fun value hvalue => symbol_eq_self (hvalues value hvalue)]
  | input fields =>
    have hfields := List.forall_mem_flatMap.1 (List.forall_mem_cons.1 h).2
    rw [Rewriting.body, map_eq_self_iff.2 fun field hfield =>
      input_eq_self (InputValue.forall_fieldDetails_iff.1 (hfields field hfield)).2]

/-- A declaration stays the same if all that it says does. -/
theorem type_eq_self {type : TypeDecl} (h : ∀ detail ∈ type.details, r.detail detail = detail) :
    r.type type = type := by
  obtain ⟨-, huses, hbody⟩ := TypeDecl.forall_details_iff.1 h
  have huses : type.directives.map r.use = type.directives :=
    map_eq_self_iff.2 fun use huse => Detail.use.inj (huses use huse)
  rw [Rewriting.type, huses, body_eq_self hbody]

theorem directive_eq_self {decl : DirectiveDecl} (h : ∀ detail ∈ decl.details, r.detail detail = detail) :
    r.directive decl = decl := by
  obtain ⟨-, -, -, hargs⟩ := DirectiveDecl.forall_details_iff.1 h
  rw [directive, map_eq_self_iff.2 fun arg harg => input_eq_self (hargs arg harg)]

theorem declaration_eq_self {d : Declaration} (h : ∀ detail ∈ d.details, r.detail detail = detail) :
    r.declaration d = d := by
  cases d with
  | type decl => exact congrArg Declaration.type (type_eq_self h)
  | directive decl => exact congrArg Declaration.directive (directive_eq_self h)
  | extension decl => exact congrArg Declaration.extension (type_eq_self h)

end Fixed

/-! ### One rewriting after the other -/

/-- What `s` makes of what `r` makes. -/
def comp (s r : Rewriting) : Rewriting where
  use := s.use ∘ r.use
  literal type v := s.literal type (r.literal type v)
  name_use u := (s.name_use (r.use u)).trans (r.name_use u)

section Comp

variable (s r : Rewriting)

theorem detail_comp (detail : Detail) : (s.comp r).detail detail = s.detail (r.detail detail) := by cases detail <;> rfl

private theorem map_input_comp (values : List InputValue) :
    (values.map r.input).map s.input = values.map (s.comp r).input := by
  refine map_map_congr (fun value => ?_) values
  simp only [input, comp, List.map_map, Option.map_map]
  rfl

private theorem map_field_comp (fields : List FieldDef) :
    (fields.map r.field).map s.field = fields.map (s.comp r).field := by
  refine map_map_congr (fun field => ?_) fields
  simp only [Rewriting.field, map_input_comp]
  simp only [comp, List.map_map]

private theorem map_symbol_comp (values : List EnumValue) :
    (values.map r.symbol).map s.symbol = values.map (s.comp r).symbol := by
  refine map_map_congr (fun value => ?_) values
  simp only [symbol, comp, List.map_map]

theorem type_comp (type : TypeDecl) : s.type (r.type type) = (s.comp r).type type := by
  simp only [Rewriting.type, List.map_map]
  cases type.body <;> simp only [Rewriting.body, map_input_comp, map_field_comp, map_symbol_comp] <;> rfl

theorem directive_comp (decl : DirectiveDecl) : s.directive (r.directive decl) = (s.comp r).directive decl := by
  simp only [directive, map_input_comp]

end Comp

end Rewriting

/-! ### Rewritten schemas -/

/-- The schema with other literals. -/
def Schema.rewritten (schema : Schema) (r : Rewriting) : Schema where
  types := schema.types.map r.type
  directives := schema.directives.map r.directive
  declaration := schema.declaration.map r.type

namespace Schema

variable {schema : Schema} {r : Rewriting} {name interface : String}

/-- What a rewritten schema says is what becomes of what it says. -/
theorem details_rewritten : (schema.rewritten r).details = schema.details.map r.detail := by
  unfold details rewritten
  dsimp only
  rw [Option.toList_map, ← List.map_append, r.details_members r.details_type, r.details_members r.details_directive,
    List.map_append]

/-- A schema stays the same if all that it says does. -/
theorem rewritten_eq_self (h : ∀ detail ∈ schema.details, r.detail detail = detail) : schema.rewritten r = schema := by
  obtain ⟨htypes, hdirectives⟩ := Schema.forall_details_iff.1 h
  have htype (type : TypeDecl) (htype : type ∈ schema.types) : r.type type = type :=
    Rewriting.type_eq_self (htypes type (List.mem_append_left _ htype))
  have hdeclaration : schema.declaration.map r.type = schema.declaration := by
    cases hroots : schema.declaration with
    | none => rfl
    | some type => exact congrArg some (Rewriting.type_eq_self (htypes type (by simp [hroots])))
  unfold rewritten
  rw [map_eq_self_iff.2 htype, hdeclaration,
    map_eq_self_iff.2 fun decl hdecl => Rewriting.directive_eq_self (hdirectives decl hdecl)]

theorem rewritten_rewritten (s : Rewriting) : (schema.rewritten r).rewritten s = schema.rewritten (s.comp r) := by
  unfold rewritten
  rw [map_map_congr (s.type_comp r), map_map_congr (s.directive_comp r), Option.map_map]
  congr 1
  exact congrArg (Option.map · _) (funext (s.type_comp r))

theorem type?_rewritten : (schema.rewritten r).type? name = (schema.type? name).map r.type :=
  Members.get?_map fun _ => rfl

theorem directive?_rewritten : (schema.rewritten r).directive? name = (schema.directive? name).map r.directive :=
  Members.get?_map fun _ => rfl

theorem scalar?_rewritten : (schema.rewritten r).scalar? name = schema.scalar? name := by
  unfold scalar?
  rw [type?_rewritten, Option.map_map]
  cases schema.type? name with
  | none => rfl
  | some type =>
    simp only [Option.map_some, Function.comp_apply, Rewriting.type]
    cases type.body <;> rfl

theorem hasType_rewritten : (schema.rewritten r).hasType name = schema.hasType name := Members.contains_map fun _ => rfl

private theorem any_rewritten {p : TypeDecl → Bool} (hp : ∀ type, p (r.type type) = p type) (type : TypeRef) :
    ((schema.rewritten r).named? type).any p = (schema.named? type).any p := by
  unfold named?
  rw [type?_rewritten, Option.any_map]
  exact congrArg (Option.any · _) (funext hp)

theorem isInput_rewritten (type : TypeRef) : (schema.rewritten r).isInput type = schema.isInput type :=
  any_rewritten (fun type => by unfold TypeDecl.isInput Rewriting.type; cases type.body <;> rfl) type

theorem isOutput_rewritten (type : TypeRef) : (schema.rewritten r).isOutput type = schema.isOutput type :=
  any_rewritten (fun type => by unfold TypeDecl.isOutput Rewriting.type; cases type.body <;> rfl) type

theorem isObject_rewritten (type : TypeRef) : (schema.rewritten r).isObject type = schema.isObject type :=
  any_rewritten (fun type => by unfold TypeDecl.isObject Rewriting.type; cases type.body <;> rfl) type

/-! ### Interfaces and unions -/

section Interfaces

variable {unvisited : List TypeDecl} {pending : List String}

theorem reaches_cons_of_none (h : Members.get? name unvisited = none) :
    reaches interface unvisited (name :: pending) = reaches interface unvisited pending := by
  rw [reaches]
  split <;> simp_all

theorem reaches_cons_of_some {decl : TypeDecl} (h : Members.get? name unvisited = some decl) :
    reaches interface unvisited (name :: pending) =
      ((decl.interfaces.map TypeRef.baseName).contains interface ||
        reaches interface (Members.erase name unvisited) (decl.interfaces.map TypeRef.baseName ++ pending)) := by
  rw [reaches]
  split <;> simp_all

theorem interfaces_rewritten (type : TypeDecl) : (r.type type).interfaces = type.interfaces := by
  unfold TypeDecl.interfaces Rewriting.type
  cases type.body <;> rfl

private theorem reaches_rewritten :
    reaches interface (unvisited.map r.type) pending = reaches interface unvisited pending := by
  have hget (name : String) (unvisited : List TypeDecl) :
      Members.get? name (unvisited.map r.type) = (Members.get? name unvisited).map r.type :=
    Members.get?_map fun _ => rfl
  have herase (name : String) (unvisited : List TypeDecl) :
      Members.erase name (unvisited.map r.type) = (Members.erase name unvisited).map r.type := by
    rw [Members.erase, List.filter_map]
    rfl
  induction unvisited, pending using reaches.induct with
  | case1 unvisited => simp [reaches]
  | case2 unvisited name pending hfound ih =>
    rw [reaches_cons_of_none hfound, reaches_cons_of_none (by rw [hget, hfound]; rfl), ih]
  | case3 unvisited name pending decl hfound names ih =>
    rw [reaches_cons_of_some hfound, reaches_cons_of_some (by rw [hget, hfound]; rfl), interfaces_rewritten, herase, ih]

theorem implements_rewritten : (schema.rewritten r).implements name interface = schema.implements name interface :=
  reaches_rewritten

theorem isPossible_rewritten {abstract : String} :
    (schema.rewritten r).isPossible abstract name = schema.isPossible abstract name := by
  unfold isPossible
  rw [type?_rewritten, implements_rewritten]
  cases schema.type? abstract with
  | none => rfl
  | some decl =>
    simp only [Option.map_some, Rewriting.type]
    cases decl.body <;> rfl

theorem isSubtype_rewritten (sub super : TypeRef) :
    (schema.rewritten r).isSubtype sub super = schema.isSubtype sub super := by
  fun_induction schema.isSubtype sub super <;> simp_all [isSubtype, isPossible_rewritten]

end Interfaces

end Schema

/-! ### Normal form -/

@[simp]
theorem Coercion.name_normalUse {c : Coercion} {use : DirectiveUse} : (c.normalUse false use).name = use.name := by
  unfold normalUse
  split <;> rfl

/-- Bringing literals into normal form. -/
def Coercion.normalizing (c : Coercion) : Rewriting := ⟨c.normalUse false, c.normalDefault, fun _ => name_normalUse⟩

namespace Schema

variable {schema : Schema} {name : String}

theorem normal_eq_rewritten : schema.normal = schema.rewritten (Coercion.normalizing { schema }) := rfl

theorem type?_normal : schema.normal.type? name = (schema.type? name).map (Coercion.normalType { schema }) :=
  type?_rewritten (r := Coercion.normalizing { schema })

theorem directive?_normal :
    schema.normal.directive? name = (schema.directive? name).map (Coercion.normalDirective { schema }) :=
  directive?_rewritten (r := Coercion.normalizing { schema })

theorem hasType_normal : schema.normal.hasType name = schema.hasType name :=
  hasType_rewritten (r := Coercion.normalizing { schema })

end Schema

end GraphQL
