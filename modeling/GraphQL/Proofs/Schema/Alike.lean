import GraphQL.Proofs.Schema.Validity
import GraphQL.Proofs.Schema.Writable
import Mathlib

/-!
# Schemas that say the same

Where a declaration stands, how it is described and in which order declarations come does not matter to what a schema
means. Schemas that differ in nothing else are alike (`Schema.Alike`): they have the same types up to that, coerce
literals to the same values (`Schema.Alike.coerceIn`), and have the same normal forms of declarations
(`Schema.Alike.normalType`).
-/

namespace GraphQL

/-! ### Bare declarations -/

/-- The argument without positions and descriptions. -/
def InputValue.bare (value : InputValue) : InputValue := { value.unplaced id with description := none }

/-- The field without positions and descriptions. -/
def FieldDef.bare (field : FieldDef) : FieldDef :=
  { field with
    description := none
    args := field.args.map InputValue.bare
    directives := field.directives.map DirectiveUse.unplaced
    pos := .start }

/-- The symbol without positions and descriptions. -/
def EnumValue.bare (value : EnumValue) : EnumValue := { value.unplaced with description := none }

/-- The object or interface without positions and descriptions. -/
def ObjectBody.bare (body : ObjectBody) : ObjectBody := { body with fields := body.fields.map FieldDef.bare }

/-- The body without positions and descriptions. -/
def TypeBody.bare : TypeBody → TypeBody
  | .object body => .object body.bare
  | .interface body => .interface body.bare
  | .enum values => .enum (values.map EnumValue.bare)
  | .input fields => .input (fields.map InputValue.bare)
  | body => body

/-- The declaration without positions and descriptions. -/
def TypeDecl.bare (type : TypeDecl) : TypeDecl :=
  { type with
    description := none
    directives := type.directives.map DirectiveUse.unplaced
    pos := .start
    body := type.body.bare }

/-- The declaration without positions and descriptions. -/
def DirectiveDecl.bare (decl : DirectiveDecl) : DirectiveDecl :=
  { decl with description := none, args := decl.args.map InputValue.bare, pos := .start }

/-- Two bodies that look the same when they are bare. -/
inductive TypeBody.Alike : TypeBody → TypeBody → Prop
  | scalar (kind : ScalarKind) : Alike (.scalar kind) (.scalar kind)
  | object {body other : ObjectBody} (h : body.bare = other.bare) : Alike (.object body) (.object other)
  | interface {body other : ObjectBody} (h : body.bare = other.bare) : Alike (.interface body) (.interface other)
  | union (members : List TypeRef) : Alike (.union members) (.union members)
  | enum {values others : List EnumValue} (h : values.map EnumValue.bare = others.map EnumValue.bare) :
      Alike (.enum values) (.enum others)
  | input {fields others : List InputValue} (h : fields.map InputValue.bare = others.map InputValue.bare) :
      Alike (.input fields) (.input others)
  | schema (roots : SchemaRoots) : Alike (.schema roots) (.schema roots)

theorem TypeBody.alike_of_bare {body other : TypeBody} (h : body.bare = other.bare) : body.Alike other := by
  cases body <;> cases other <;> simp only [TypeBody.bare, reduceCtorEq] at h
  case scalar.scalar kind _ =>
    cases h
    exact .scalar kind
  case object.object => exact .object (TypeBody.object.inj h)
  case interface.interface => exact .interface (TypeBody.interface.inj h)
  case union.union members _ =>
    cases h
    exact .union members
  case enum.enum => exact .enum (TypeBody.enum.inj h)
  case input.input => exact .input (TypeBody.input.inj h)
  case schema.schema roots _ =>
    cases h
    exact .schema roots

namespace Schema

/-- The schemas differ at most in positions, descriptions and the order of declarations. -/
structure Alike (schema other : Schema) : Prop where
  types : (schema.types.map TypeDecl.bare).Perm (other.types.map TypeDecl.bare)
  directives : (schema.directives.map DirectiveDecl.bare).Perm (other.directives.map DirectiveDecl.bare)
  declaration : schema.declaration.map TypeDecl.bare = other.declaration.map TypeDecl.bare
  distinctTypes : Members.Distinct schema.types
  distinctDirectives : Members.Distinct schema.directives

namespace Alike

variable {schema other : Schema}

theorem symm (h : schema.Alike other) : other.Alike schema where
  types := h.types.symm
  directives := h.directives.symm
  declaration := h.declaration.symm
  distinctTypes := (Members.distinct_map_iff (f := TypeDecl.bare) fun _ => rfl).1 <|
    (h.distinctTypes.map (f := TypeDecl.bare) fun _ => rfl).perm h.types
  distinctDirectives := (Members.distinct_map_iff (f := DirectiveDecl.bare) fun _ => rfl).1 <|
    (h.distinctDirectives.map (f := DirectiveDecl.bare) fun _ => rfl).perm h.directives

/-! ### Looking up -/

private theorem lookup {α : Type} [HasName α] (bare : α → α) (hbare : ∀ a, HasName.name (bare a) = HasName.name a)
    {members others : List α} (hdistinct : Members.Distinct members) (h : (members.map bare).Perm (others.map bare))
    (name : String) : (Members.get? name members).map bare = (Members.get? name others).map bare := by
  rw [← Members.get?_map hbare, ← Members.get?_map hbare]
  exact (hdistinct.map hbare).get?_perm h name

/-- Either both schemas have the type, and it looks the same, or none has. -/
theorem type? (h : schema.Alike other) (name : String) :
    schema.type? name = none ∧ other.type? name = none ∨
      ∃ type type', schema.type? name = some type ∧ other.type? name = some type' ∧ type.bare = type'.bare := by
  have hsame := lookup TypeDecl.bare (fun _ => rfl) h.distinctTypes h.types name
  unfold Schema.type?
  cases htype : Members.get? name schema.types with
  | none =>
    rw [htype] at hsame
    exact .inl ⟨rfl, Option.map_eq_none_iff.1 hsame.symm⟩
  | some type =>
    rw [htype] at hsame
    obtain ⟨type', htype', hbare⟩ := Option.map_eq_some_iff.1 hsame.symm
    exact .inr ⟨type, type', rfl, htype', hbare.symm⟩

/-- Either both schemas have the directive, and it looks the same, or none has. -/
theorem directive? (h : schema.Alike other) (name : String) :
    schema.directive? name = none ∧ other.directive? name = none ∨
      ∃ decl decl', schema.directive? name = some decl ∧ other.directive? name = some decl' ∧
        decl.bare = decl'.bare := by
  have hsame := lookup DirectiveDecl.bare (fun _ => rfl) h.distinctDirectives h.directives name
  unfold Schema.directive?
  cases hdecl : Members.get? name schema.directives with
  | none =>
    rw [hdecl] at hsame
    exact .inl ⟨rfl, Option.map_eq_none_iff.1 hsame.symm⟩
  | some decl =>
    rw [hdecl] at hsame
    obtain ⟨decl', hdecl', hbare⟩ := Option.map_eq_some_iff.1 hsame.symm
    exact .inr ⟨decl, decl', rfl, hdecl', hbare.symm⟩

private theorem any_named (h : schema.Alike other) {p : TypeDecl → Bool} (hp : ∀ type, p type.bare = p type)
    (type : TypeRef) : (schema.named? type).any p = (other.named? type).any p := by
  unfold named?
  rcases h.type? type.baseName with ⟨hnone, hnone'⟩ | ⟨decl, decl', hdecl, hdecl', hbare⟩
  · rw [hnone, hnone']
  · rw [hdecl, hdecl', Option.any_some, Option.any_some, ← hp, hbare, hp]

theorem isInput (h : schema.Alike other) (type : TypeRef) : schema.isInput type = other.isInput type :=
  h.any_named (fun type => by unfold TypeDecl.isInput TypeDecl.bare; cases type.body <;> rfl) type

theorem isOutput (h : schema.Alike other) (type : TypeRef) : schema.isOutput type = other.isOutput type :=
  h.any_named (fun type => by unfold TypeDecl.isOutput TypeDecl.bare; cases type.body <;> rfl) type

theorem isObject (h : schema.Alike other) (type : TypeRef) : schema.isObject type = other.isObject type :=
  h.any_named (fun type => by unfold TypeDecl.isObject TypeDecl.bare; cases type.body <;> rfl) type

end Alike

end Schema

/-! ### Coercion -/

namespace Coercion

variable {c : Coercion} {other : Schema}

private theorem inputEntries_bare (input : String) (given : List (String × Except CoercionError Value))
    (fields : List InputValue) :
    inputEntries input given (fields.map InputValue.bare) = inputEntries input given fields := by
  induction fields with
  | nil => rfl
  | cons field fields ih =>
    rw [List.map_cons]
    unfold inputEntries
    rw [ih]
    rfl

private theorem coerceInput_bare (input : String) (given : List (String × Except CoercionError Value))
    (fields : List InputValue) :
    coerceInput input (fields.map InputValue.bare) given = coerceInput input fields given := by
  have hcontains (name : String) : Members.contains name (fields.map InputValue.bare) = Members.contains name fields :=
    Members.contains_map fun _ => rfl
  unfold coerceInput
  simp only [hcontains, inputEntries_bare]

private theorem coerceSymbol_bare (enum : String) (values : List EnumValue) (v : Value) :
    c.coerceSymbol enum (values.map EnumValue.bare) v = c.coerceSymbol enum values v := by
  have hcontains (name : String) : Members.contains name (values.map EnumValue.bare) = Members.contains name values :=
    Members.contains_map fun _ => rfl
  unfold coerceSymbol
  simp only [hcontains]

/-- The fields with the same bare form are found under the same names, with the same types. -/
theorem type_get? {fields fields' : List InputValue}
    (h : fields.map InputValue.bare = fields'.map InputValue.bare) (key : String) :
    (Members.get? key fields).map InputValue.type = (Members.get? key fields').map InputValue.type := by
  have hbare (fields : List InputValue) : (Members.get? key fields).map InputValue.type =
      (Members.get? key (fields.map InputValue.bare)).map InputValue.type := by
    rw [Members.get?_map (f := InputValue.bare) fun _ => rfl, Option.map_map]
    rfl
  rw [hbare, h, ← hbare]

private theorem coerceNamed_alike (h : c.schema.Alike other) (v : Value)
    (given given' : Option (List InputValue → List (String × Except CoercionError Value)))
    (hgiven : ∀ fields fields' : List InputValue, fields.map InputValue.bare = fields'.map InputValue.bare →
      given.map (· fields) = given'.map (· fields')) :
    c.coerceNamed v given = { c with schema := other }.coerceNamed v given' := by
  funext name
  unfold coerceNamed
  rcases h.type? name with ⟨hnone, hnone'⟩ | ⟨decl, decl', hdecl, hdecl', hbare⟩
  · dsimp only
    rw [hnone, hnone']
  · have hname : decl.bare.name = decl'.bare.name := congrArg TypeDecl.name hbare
    have hbody := TypeBody.alike_of_bare (congrArg TypeDecl.body hbare)
    change decl.name = decl'.name at hname
    dsimp only
    rw [hdecl, hdecl']
    dsimp only
    rw [hname]
    generalize decl.body = body, decl'.body = body' at hbody
    cases hbody with
    | scalar kind => rfl
    | @enum values values' hvalues =>
      show c.coerceSymbol decl'.name values v = c.coerceSymbol decl'.name values' v
      rw [← coerceSymbol_bare, hvalues, coerceSymbol_bare]
    | @input fields fields' hfields =>
      have hsame := hgiven fields fields' hfields
      cases given with
      | none =>
        have hnone : given' = none := by simpa using hsame.symm
        rw [hnone]
      | some given =>
        obtain ⟨given', rfl, hentries⟩ := Option.map_eq_some_iff.1 hsame.symm
        dsimp only at hentries ⊢
        rw [← hentries, ← coerceInput_bare, hfields, coerceInput_bare]
    | object _ | interface _ | union _ | schema _ => rfl

mutual

/-- In alike schemas literals are coerced to the same values. -/
theorem coerceIn_alike (h : c.schema.Alike other) (type : TypeRef) (v : Value) :
    c.coerceIn type v = { c with schema := other }.coerceIn type v := by
  cases v with
  | var name => unfold coerceIn; rfl
  | null => unfold coerceIn; rfl
  | list items =>
    unfold coerceIn
    rw [coerceNamed_alike h (.list items) none none fun _ _ _ => rfl]
    simp only [coerceItems_alike h]
  | object entries =>
    unfold coerceIn
    have hgiven (fields fields' : List InputValue) (hfields : fields.map InputValue.bare = fields'.map InputValue.bare) :
        some (c.coerceEntries fields entries) = some ({ c with schema := other }.coerceEntries fields' entries) :=
      congrArg some (coerceEntries_alike h hfields entries)
    rw [coerceNamed_alike h (.object entries) (some _) (some _) hgiven]
  | bool _ | int _ | float _ | string _ | enum _ | time _ =>
    unfold coerceIn
    rw [coerceNamed_alike h _ none none fun _ _ _ => rfl]

private theorem coerceItems_alike (h : c.schema.Alike other) (item : TypeRef) (items : List Value) :
    c.coerceItems item items = { c with schema := other }.coerceItems item items := by
  cases items with
  | nil => rfl
  | cons v rest =>
    unfold coerceItems
    rw [coerceIn_alike h, coerceItems_alike h]

private theorem coerceEntries_alike (h : c.schema.Alike other) {fields fields' : List InputValue}
    (hfields : fields.map InputValue.bare = fields'.map InputValue.bare) (entries : List (String × Value)) :
    c.coerceEntries fields entries = { c with schema := other }.coerceEntries fields' entries := by
  cases entries with
  | nil => rfl
  | cons entry rest =>
    obtain ⟨key, v⟩ := entry
    have htype := type_get? hfields key
    unfold coerceEntries
    rw [coerceEntries_alike h hfields rest]
    cases hfield : Members.get? key fields with
    | none =>
      rw [hfield] at htype
      rw [Option.map_eq_none_iff.1 htype.symm]
    | some field =>
      rw [hfield] at htype
      obtain ⟨field', hfield', hsame⟩ := Option.map_eq_some_iff.1 htype.symm
      rw [hfield']
      dsimp only
      rw [hsame, coerceIn_alike h]

end

end Coercion

namespace Schema.Alike

variable {schema other : Schema}

theorem coerceIn (h : schema.Alike other) (type : TypeRef) (v : Value) :
    schema.coercion.coerceIn type v = other.coercion.coerceIn type v :=
  Coercion.coerceIn_alike (c := schema.coercion) h type v

theorem accepts (h : schema.Alike other) {type : TypeRef} {v : Value} (hv : schema.Accepts type v) :
    other.Accepts type v := by
  obtain ⟨hvar, w, hw⟩ := hv
  exact ⟨hvar, w, h.coerceIn type v ▸ hw⟩

/-! ### Normal forms -/

theorem normalLiteral (h : schema.Alike other) : schema.coercion.normalLiteral = other.coercion.normalLiteral := by
  funext type v
  unfold Coercion.normalLiteral
  rw [h.coerceIn]

theorem normalDefault (h : schema.Alike other) : schema.coercion.normalDefault = other.coercion.normalDefault := by
  funext type v
  unfold Coercion.normalDefault
  rw [h.normalLiteral]

private theorem missingDefaults_bare (args : List InputValue) (given : List (String × Value)) :
    Coercion.missingDefaults (args.map InputValue.bare) given = Coercion.missingDefaults args given := by
  unfold Coercion.missingDefaults
  rw [List.filterMap_map]
  rfl

private theorem normalArgument (h : schema.Alike other) {args args' : List InputValue}
    (hargs : args.map InputValue.bare = args'.map InputValue.bare) (allowVariables : Bool) :
    schema.coercion.normalArgument allowVariables args = other.coercion.normalArgument allowVariables args' := by
  funext given
  have htype := Coercion.type_get? hargs given.1
  unfold Coercion.normalArgument
  cases harg : Members.get? given.1 args with
  | none =>
    rw [harg] at htype
    rw [Option.map_eq_none_iff.1 htype.symm]
  | some arg =>
    rw [harg] at htype
    obtain ⟨arg', harg', hsame⟩ := Option.map_eq_some_iff.1 htype.symm
    rw [harg']
    dsimp only
    rw [hsame, h.normalLiteral]

theorem normalUse (h : schema.Alike other) (allowVariables : Bool) :
    schema.coercion.normalUse allowVariables = other.coercion.normalUse allowVariables := by
  funext use
  unfold Coercion.normalUse
  rcases h.directive? use.name with ⟨hnone, hnone'⟩ | ⟨decl, decl', hdecl, hdecl', hbare⟩
  · rw [show schema.coercion.schema.directive? use.name = none from hnone,
      show other.coercion.schema.directive? use.name = none from hnone']
  · have hargs : decl.args.map InputValue.bare = decl'.args.map InputValue.bare := congrArg DirectiveDecl.args hbare
    rw [show schema.coercion.schema.directive? use.name = some decl from hdecl,
      show other.coercion.schema.directive? use.name = some decl' from hdecl']
    dsimp only
    rw [h.normalArgument hargs, ← missingDefaults_bare, hargs, missingDefaults_bare]

theorem normalInput (h : schema.Alike other) : schema.coercion.normalInput = other.coercion.normalInput := by
  funext value
  unfold Coercion.normalInput
  rw [h.normalUse, h.normalDefault]

theorem normalField (h : schema.Alike other) : schema.coercion.normalField = other.coercion.normalField := by
  funext field
  unfold Coercion.normalField
  rw [h.normalUse, h.normalInput]

theorem normalSymbol (h : schema.Alike other) : schema.coercion.normalSymbol = other.coercion.normalSymbol := by
  funext value
  unfold Coercion.normalSymbol
  rw [h.normalUse]

/-- Declarations have the same normal form in alike schemas. -/
theorem normalType (h : schema.Alike other) : schema.coercion.normalType = other.coercion.normalType := by
  funext type
  unfold Coercion.normalType Coercion.normalBody
  rw [h.normalUse, h.normalField, h.normalSymbol, h.normalInput]

theorem normalDirective (h : schema.Alike other) :
    schema.coercion.normalDirective = other.coercion.normalDirective := by
  funext decl
  unfold Coercion.normalDirective
  rw [h.normalInput]

end Schema.Alike

end GraphQL
