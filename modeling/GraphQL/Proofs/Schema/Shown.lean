import GraphQL.Proofs.Schema.Alike

/-!
# What a schema text shows

A layout may leave descriptions out, and no layout shows positions. `TypeDecl.shown` and `DirectiveDecl.shown` are
the declarations with the descriptions that are left; in full their lines are those of the declaration
(`SchemaText.type_shown`). Positions, which are never shown, matter neither to references nor to normal forms.
-/

namespace GraphQL

/-! ### Shown declarations -/

section Shown

variable (layout : SchemaLayout)

/-- The description, if the layout shows descriptions. -/
def SchemaLayout.shown (description : Option String) : Option String :=
  if layout.descriptions then description else none

/-- A field of an input object with the description that is shown. That of an argument always is. -/
def InputValue.shown (value : InputValue) : InputValue := { value with description := layout.shown value.description }

def FieldDef.shown (field : FieldDef) : FieldDef := { field with description := layout.shown field.description }

def EnumValue.shown (value : EnumValue) : EnumValue := { value with description := layout.shown value.description }

def ObjectBody.shown (body : ObjectBody) : ObjectBody := { body with fields := body.fields.map (FieldDef.shown layout) }

def TypeBody.shown : TypeBody → TypeBody
  | .object body => .object (body.shown layout)
  | .interface body => .interface (body.shown layout)
  | .enum values => .enum (values.map (EnumValue.shown layout))
  | .input fields => .input (fields.map (InputValue.shown layout))
  | body => body

def TypeDecl.shown (type : TypeDecl) : TypeDecl :=
  { type with description := layout.shown type.description, body := type.body.shown layout }

def DirectiveDecl.shown (decl : DirectiveDecl) : DirectiveDecl :=
  { decl with description := layout.shown decl.description }

end Shown

/-! ### Lines -/

namespace SchemaText

variable {layout other : SchemaLayout}

section Descriptions

variable (h : layout.descriptions = true → other.descriptions = true)

include h

private theorem descriptionLines_shown (indent : String) (description : Option String) :
    descriptionLines other indent (layout.shown description) = descriptionLines layout indent description := by
  unfold SchemaLayout.shown descriptionLines
  cases hlayout : layout.descriptions with
  | false => cases description <;> rfl
  | true =>
    rw [h hlayout]
    cases description <;> rfl

private theorem typeBody_shown (type : TypeDecl) : typeBody other (type.shown layout) = typeBody layout type := by
  have hfields (fields : List FieldDef) :
      (fields.map (FieldDef.shown layout)).map (field other) = fields.map (field layout) := by
    refine map_map_congr (fun value => ?_) fields
    simp only [field, FieldDef.shown, descriptionLines_shown h]
  have hvalues (values : List EnumValue) :
      (values.map (EnumValue.shown layout)).map (symbol other) = values.map (symbol layout) := by
    refine map_map_congr (fun value => ?_) values
    simp only [symbol, EnumValue.shown, descriptionLines_shown h]
  have hinputs (fields : List InputValue) :
      (fields.map (InputValue.shown layout)).map (inputField other) = fields.map (inputField layout) := by
    refine map_map_congr (fun value => ?_) fields
    simp only [inputField, InputValue.shown, descriptionLines_shown h, inputValue]
  unfold typeBody TypeDecl.shown
  cases type.body <;>
    simp only [TypeBody.shown, ObjectBody.shown, TypeBody.keyword, hfields, hvalues, hinputs]

/-- The lines of what a layout shows are those of the type in any layout that shows as much. -/
theorem type_shown (type : TypeDecl) : SchemaText.type other (type.shown layout) = SchemaText.type layout type := by
  unfold SchemaText.type
  rw [typeBody_shown h]
  exact congrArg (· ++ _) (descriptionLines_shown h "" type.description)

theorem directive_shown (decl : DirectiveDecl) : directive other (decl.shown layout) = directive layout decl := by
  unfold directive
  simp only [DirectiveDecl.shown, descriptionLines_shown h]
  rfl

end Descriptions

/-! ### Positions -/

private theorem uses_unplaced (directives : List DirectiveUse) :
    uses (directives.map DirectiveUse.unplaced) = uses directives := by
  unfold uses
  rw [List.map_map]
  rfl

private theorem inputValue_unplaced (value : InputValue) : inputValue (value.unplaced id) = inputValue value := by
  unfold inputValue InputValue.unplaced
  simp only [uses_unplaced, id]

private theorem argumentDecls_unplaced (args : List InputValue) :
    argumentDecls (args.map (InputValue.unplaced id)) = argumentDecls args := by
  have hargs : (args.map (InputValue.unplaced id)).map argument = args.map argument := by
    refine map_map_congr (fun value => ?_) args
    unfold argument
    simp only [inputValue_unplaced]
    rfl
  unfold argumentDecls
  rw [hargs, List.isEmpty_map]

private theorem typeBody_unplaced (type : TypeDecl) : typeBody layout (type.unplaced id) = typeBody layout type := by
  have hfields (fields : List FieldDef) :
      (fields.map (FieldDef.unplaced id)).map (field layout) = fields.map (field layout) := by
    refine map_map_congr (fun value => ?_) fields
    simp only [field, FieldDef.unplaced, argumentDecls_unplaced, uses_unplaced, id]
  have hvalues (values : List EnumValue) :
      (values.map EnumValue.unplaced).map (symbol layout) = values.map (symbol layout) := by
    refine map_map_congr (fun value => ?_) values
    simp only [symbol, EnumValue.unplaced, uses_unplaced]
  have hinputs (fields : List InputValue) :
      (fields.map (InputValue.unplaced id)).map (inputField layout) = fields.map (inputField layout) := by
    refine map_map_congr (fun value => ?_) fields
    simp only [inputField, inputValue_unplaced]
    rfl
  have hroots (roots : SchemaRoots) : root (roots.unplaced id) = root roots := by
    funext kind
    cases kind <;> simp [root, SchemaRoots.root?, SchemaRoots.unplaced]
  unfold typeBody TypeDecl.unplaced
  cases type.body <;>
    simp only [TypeBody.unplaced, ObjectBody.unplaced, TypeBody.keyword, uses_unplaced, hfields, hvalues, hinputs,
      hroots, List.map_id]

/-- The lines of a type do not depend on where it stands. -/
theorem type_unplaced (type : TypeDecl) : SchemaText.type layout (type.unplaced id) = SchemaText.type layout type := by
  unfold SchemaText.type
  rw [typeBody_unplaced]
  rfl

theorem directive_unplaced (decl : DirectiveDecl) : directive layout (decl.unplaced id) = directive layout decl := by
  unfold directive DirectiveDecl.unplaced
  simp only [argumentDecls_unplaced]

end SchemaText

/-! ### Bare forms -/

theorem TypeDecl.bare_unplaced (type : TypeDecl) : (type.unplaced id).bare = type.bare := by
  have huses (uses : List DirectiveUse) :
      (uses.map DirectiveUse.unplaced).map DirectiveUse.unplaced = uses.map DirectiveUse.unplaced := List.map_map
  have hinput (value : InputValue) : (value.unplaced id).bare = value.bare := by
    simp only [InputValue.bare, InputValue.unplaced, huses, id]
  have hargs (args : List InputValue) : (args.map (InputValue.unplaced id)).map InputValue.bare = args.map InputValue.bare := by
    exact map_map_congr hinput args
  have hfields (fields : List FieldDef) : (fields.map (FieldDef.unplaced id)).map FieldDef.bare = fields.map FieldDef.bare := by
    refine map_map_congr (fun field => ?_) fields
    simp only [FieldDef.bare, FieldDef.unplaced, huses, hargs, id]
  have hvalues (values : List EnumValue) :
      (values.map EnumValue.unplaced).map EnumValue.bare = values.map EnumValue.bare := by
    refine map_map_congr (fun value => ?_) values
    simp only [EnumValue.bare, EnumValue.unplaced, huses]
  have hroots (roots : SchemaRoots) : roots.unplaced id = roots := by simp [SchemaRoots.unplaced]
  unfold TypeDecl.unplaced TypeDecl.bare
  cases type.body <;>
    simp only [TypeBody.unplaced, TypeBody.bare, ObjectBody.unplaced, ObjectBody.bare, huses, hargs, hfields, hvalues,
      hroots, List.map_id]

theorem DirectiveDecl.bare_unplaced (decl : DirectiveDecl) : (decl.unplaced id).bare = decl.bare := by
  have huses (uses : List DirectiveUse) :
      (uses.map DirectiveUse.unplaced).map DirectiveUse.unplaced = uses.map DirectiveUse.unplaced := List.map_map
  have hargs (args : List InputValue) : (args.map (InputValue.unplaced id)).map InputValue.bare = args.map InputValue.bare := by
    refine map_map_congr (fun value => ?_) args
    simp only [InputValue.bare, InputValue.unplaced, huses, id]
  unfold DirectiveDecl.unplaced DirectiveDecl.bare
  rw [hargs]

/-! ### Normal forms -/

namespace Coercion

variable (c : Coercion)

private theorem map_normalUse_unplaced (uses : List DirectiveUse) :
    (uses.map (c.normalUse false)).map DirectiveUse.unplaced =
      (uses.map DirectiveUse.unplaced).map (c.normalUse false) := by
  refine map_map_comm (fun use => ?_) uses
  unfold normalUse DirectiveUse.unplaced
  cases c.schema.directive? use.name <;> rfl

private theorem map_normalInput_unplaced (args : List InputValue) :
    (args.map c.normalInput).map (InputValue.unplaced id) = (args.map (InputValue.unplaced id)).map c.normalInput := by
  refine map_map_comm (fun value => ?_) args
  unfold normalInput InputValue.unplaced
  simp only [map_normalUse_unplaced, id]

/-- Where a declaration stands does not matter to its normal form. -/
theorem normalType_unplaced (type : TypeDecl) : (c.normalType type).unplaced id = c.normalType (type.unplaced id) := by
  have hfields (fields : List FieldDef) :
      (fields.map c.normalField).map (FieldDef.unplaced id) = (fields.map (FieldDef.unplaced id)).map c.normalField := by
    refine map_map_comm (fun field => ?_) fields
    unfold normalField FieldDef.unplaced
    simp only [map_normalUse_unplaced, map_normalInput_unplaced]
  have hvalues (values : List EnumValue) :
      (values.map c.normalSymbol).map EnumValue.unplaced = (values.map EnumValue.unplaced).map c.normalSymbol := by
    refine map_map_comm (fun value => ?_) values
    unfold normalSymbol EnumValue.unplaced
    simp only [map_normalUse_unplaced]
  unfold normalType TypeDecl.unplaced
  cases type.body <;>
    simp only [normalBody, TypeBody.unplaced, ObjectBody.unplaced, map_normalUse_unplaced, map_normalInput_unplaced,
      hfields, hvalues]

theorem normalDirective_unplaced (decl : DirectiveDecl) :
    (c.normalDirective decl).unplaced id = c.normalDirective (decl.unplaced id) := by
  unfold normalDirective DirectiveDecl.unplaced
  simp only [map_normalInput_unplaced]

end Coercion

/-! ### References -/

section References

variable (f g : TypeRef → TypeRef)

private theorem map_unplaced_unplaced (uses : List DirectiveUse) :
    (uses.map DirectiveUse.unplaced).map DirectiveUse.unplaced = uses.map DirectiveUse.unplaced := List.map_map

private theorem map_inputUnplaced (args : List InputValue) :
    (args.map (InputValue.unplaced f)).map (InputValue.unplaced g) = args.map (InputValue.unplaced (g ∘ f)) := by
  refine map_map_congr (fun value => ?_) args
  simp only [InputValue.unplaced, map_unplaced_unplaced, Function.comp_apply]

theorem TypeDecl.unplaced_unplaced (type : TypeDecl) : (type.unplaced f).unplaced g = type.unplaced (g ∘ f) := by
  have hfields (fields : List FieldDef) :
      (fields.map (FieldDef.unplaced f)).map (FieldDef.unplaced g) = fields.map (FieldDef.unplaced (g ∘ f)) := by
    refine map_map_congr (fun field => ?_) fields
    simp only [FieldDef.unplaced, map_unplaced_unplaced, map_inputUnplaced, Function.comp_apply]
  have hvalues (values : List EnumValue) :
      (values.map EnumValue.unplaced).map EnumValue.unplaced = values.map EnumValue.unplaced := by
    refine map_map_congr (fun value => ?_) values
    simp only [EnumValue.unplaced, map_unplaced_unplaced]
  unfold TypeDecl.unplaced
  rw [map_unplaced_unplaced]
  cases type.body with
  | input fields => simp only [TypeBody.unplaced, map_inputUnplaced]
  | scalar _ | object _ | interface _ | union _ | enum _ | schema _ =>
    simp only [TypeBody.unplaced, ObjectBody.unplaced, SchemaRoots.unplaced, hfields, hvalues, List.map_map,
      Option.map_map]

theorem DirectiveDecl.unplaced_unplaced (decl : DirectiveDecl) :
    (decl.unplaced f).unplaced g = decl.unplaced (g ∘ f) := by
  unfold DirectiveDecl.unplaced
  simp only [map_inputUnplaced]

private theorem map_inputResolved (args : List InputValue) :
    (args.map InputValue.resolved).map (InputValue.unplaced id) = args.map (InputValue.unplaced TypeRef.resolved) := by
  rw [List.map_map]
  rfl

theorem TypeDecl.unplaced_resolved (type : TypeDecl) : type.resolved.unplaced id = type.unplaced TypeRef.resolved := by
  have hfields (fields : List FieldDef) :
      (fields.map FieldDef.resolved).map (FieldDef.unplaced id) = fields.map (FieldDef.unplaced TypeRef.resolved) := by
    refine map_map_congr (fun field => ?_) fields
    simp only [FieldDef.unplaced, FieldDef.resolved, map_inputResolved, id]
  unfold TypeDecl.resolved TypeDecl.unplaced
  cases type.body <;>
    simp only [TypeBody.resolved, TypeBody.unplaced, ObjectBody.unplaced, ObjectBody.resolved, SchemaRoots.unplaced,
      map_inputResolved, hfields, List.map_id, Option.map_id, id]

theorem DirectiveDecl.unplaced_resolved (decl : DirectiveDecl) :
    decl.resolved.unplaced id = decl.unplaced TypeRef.resolved := by
  unfold DirectiveDecl.resolved DirectiveDecl.unplaced
  simp only [map_inputResolved]

theorem TypeRef.resolved_comp_unplaced : TypeRef.resolved ∘ TypeRef.unplaced = TypeRef.resolved := by
  funext type
  induction type with
  | named _ | unresolved _ _ => rfl
  | list _ ih => exact congrArg TypeRef.list ih
  | nonNull _ ih => exact congrArg TypeRef.nonNull ih

end References

end GraphQL
