import GraphQL.Proofs.Schema.Unplaced

/-!
# Texts without descriptions

A layout may leave descriptions out. Then a schema text is that of the schema without them (`Schema.text_shown`), so
that schemas which differ in nothing but these have the same text. Descriptions of arguments are not among these: they
stand in every text, and `Schema.length_text` counts what they take.
-/

namespace GraphQL

/-! ### What a layout shows of a schema -/

/-- The schema with the descriptions that the layout shows. -/
def Schema.shown (layout : SchemaLayout) (schema : Schema) : Schema where
  types := schema.types.map (TypeDecl.shown layout)
  directives := schema.directives.map (DirectiveDecl.shown layout)
  declaration := schema.declaration.map (TypeDecl.shown layout)

/-- The text in a layout is that of what the layout shows, in any layout that shows as much. -/
theorem Schema.text_shown {layout full : SchemaLayout} (hbuiltins : full.builtins = layout.builtins)
    (hdescriptions : layout.descriptions = true → full.descriptions = true) (schema : Schema) :
    (schema.shown layout).text full = schema.text layout := by
  have hrank (type : TypeDecl) : (type.shown layout).body.rank = type.body.rank := by
    rw [TypeDecl.shown]
    cases type.body <;> rfl
  refine (text_map (f := TypeDecl.shown layout) (g := DirectiveDecl.shown layout) hbuiltins
    (fun t => ⟨rfl, rfl, hrank t⟩) fun _ => ⟨rfl, rfl⟩).trans ?_
  simp only [SchemaText.type_shown hdescriptions, SchemaText.directive_shown hdescriptions]
  rfl

/-! ### Descriptions of arguments -/

/-- The argument without its description. -/
def InputValue.undescribed (arg : InputValue) : InputValue := { arg with description := none }

/-- The field without the descriptions of its arguments. -/
def FieldDef.undescribed (field : FieldDef) : FieldDef := { field with args := field.args.map InputValue.undescribed }

def ObjectBody.undescribed (body : ObjectBody) : ObjectBody :=
  { body with fields := body.fields.map FieldDef.undescribed }

def TypeBody.undescribed : TypeBody → TypeBody
  | .object body => .object body.undescribed
  | .interface body => .interface body.undescribed
  | body => body

/-- The type without the descriptions of arguments. -/
def TypeDecl.undescribed (type : TypeDecl) : TypeDecl := { type with body := type.body.undescribed }

/-- The directive without the descriptions of its arguments. -/
def DirectiveDecl.undescribed (decl : DirectiveDecl) : DirectiveDecl :=
  { decl with args := decl.args.map InputValue.undescribed }

/-- The schema without the descriptions of arguments. -/
def Schema.undescribed (schema : Schema) : Schema where
  types := schema.types.map TypeDecl.undescribed
  directives := schema.directives.map DirectiveDecl.undescribed
  declaration := schema.declaration.map TypeDecl.undescribed

/-- The arguments of the fields of a type. -/
def TypeDecl.fieldArgs (type : TypeDecl) : List InputValue := (type.fields?.getD []).flatMap FieldDef.args

/-- The arguments in the types and directives that the layout shows. -/
def Schema.textArgs (layout : SchemaLayout) (schema : Schema) : List InputValue :=
  schema.declaration.toList.flatMap TypeDecl.fieldArgs ++ (schema.textDirectives layout).flatMap DirectiveDecl.args ++
    (schema.textTypes layout).flatMap TypeDecl.fieldArgs

private theorem map_undescribed {args : List InputValue} (h : ∀ arg ∈ args, arg.description = none) :
    args.map InputValue.undescribed = args := by
  refine (List.map_congr_left fun arg harg => ?_).trans (List.map_id args)
  rw [InputValue.undescribed, ← h arg harg, id]

theorem TypeDecl.undescribed_eq {type : TypeDecl} (h : ∀ arg ∈ type.fieldArgs, arg.description = none) :
    type.undescribed = type := by
  have hfields {fields : List FieldDef} (h : ∀ arg ∈ fields.flatMap FieldDef.args, arg.description = none) :
      fields.map FieldDef.undescribed = fields := by
    refine (List.map_congr_left fun field hfield => ?_).trans (List.map_id fields)
    rw [FieldDef.undescribed, map_undescribed fun arg harg => h arg (List.mem_flatMap.2 ⟨field, hfield, harg⟩), id]
  obtain ⟨name, description, directives, pos, builtin, body⟩ := type
  cases body with
  | object body | interface body =>
    have hbody : body.fields.map FieldDef.undescribed = body.fields := hfields h
    simp only [TypeDecl.undescribed, TypeBody.undescribed, ObjectBody.undescribed, hbody]
  | scalar _ | union _ | enum _ | input _ | schema _ => rfl

theorem DirectiveDecl.undescribed_eq {decl : DirectiveDecl} (h : ∀ arg ∈ decl.args, arg.description = none) :
    decl.undescribed = decl := by
  rw [DirectiveDecl.undescribed, map_undescribed h]

/-! ### Counting -/

/-- How many characters the description of an argument takes. -/
def InputValue.described (arg : InputValue) : Nat :=
  match arg.description with
  | some text => (Quoted.write text).length + 1
  | none => 0

theorem InputValue.described_eq_zero_iff (arg : InputValue) : arg.described = 0 ↔ arg.description = none := by
  unfold described
  cases arg.description <;> simp

namespace SchemaText

theorem length_join (separator : String) (items : List String) :
    (join separator items).length = (items.map String.length).sum + (items.length - 1) * separator.length := by
  unfold join
  induction items with
  | nil => simp [String.intercalate]
  | cons item items ih =>
    cases items with
    | nil => simp
    | cons next items =>
      rw [String.intercalate_cons_cons]
      simp only [String.length_append, ih, List.map_cons, List.sum_cons, List.length_cons, Nat.add_sub_cancel]
      ring

/-- Items that are longer than others by what `more` tells are so together. -/
theorem length_join_map {α : Type} {f g : α → String} {more : α → Nat} (h : ∀ a, (f a).length = (g a).length + more a)
    (separator : String) (items : List α) :
    (join separator (items.map f)).length = (join separator (items.map g)).length + (items.map more).sum := by
  have hsum : ((items.map f).map String.length).sum =
      ((items.map g).map String.length).sum + (items.map more).sum := by
    simp only [List.map_map, Function.comp_def, h, List.sum_map_add]
  rw [length_join, length_join, hsum, List.length_map, List.length_map]
  ring

private theorem sum_map_flatMap {α β : Type} (f : α → List β) (size : β → Nat) (items : List α) :
    ((items.flatMap f).map size).sum = (items.map fun a => ((f a).map size).sum).sum := by
  rw [List.map_flatMap, List.flatMap_def, List.sum_flatten, List.map_map]
  rfl

theorem length_join_lines {α : Type} {f g : α → String} {more : α → Nat}
    (h : ∀ a, (f a).length = (g a).length + more a) (items : List α) :
    (String.join (items.map f)).length = (String.join (items.map g)).length + (items.map more).sum := by
  induction items with
  | nil => rfl
  | cons a items ih =>
    simp only [List.map_cons, String.join_cons, String.length_append, List.sum_cons, ih, h]
    omega

private theorem length_argument (arg : InputValue) :
    (argument arg).length = (argument arg.undescribed).length + arg.described := by
  have hbare : inputValue arg.undescribed = inputValue arg := rfl
  unfold argument InputValue.described
  rw [hbare, InputValue.undescribed]
  cases arg.description with
  | none => rfl
  | some text =>
    have hspace : " ".length = 1 := rfl
    simp only [String.length_append, hspace, String.length_empty]
    omega

private theorem length_argumentDecls (args : List InputValue) :
    (argumentDecls args).length =
      (argumentDecls (args.map InputValue.undescribed)).length + (args.map InputValue.described).sum := by
  unfold argumentDecls
  rw [List.isEmpty_map]
  split
  · next hempty =>
    rw [List.isEmpty_iff.1 hempty]
    rfl
  · rw [List.map_map]
    simp only [String.length_append,
      length_join_map (g := argument ∘ InputValue.undescribed) length_argument ", " args]
    omega

variable (layout : SchemaLayout)

private theorem length_field (field : FieldDef) :
    (SchemaText.field layout field).length =
      (SchemaText.field layout field.undescribed).length + (field.args.map InputValue.described).sum := by
  unfold SchemaText.field
  dsimp only [FieldDef.undescribed]
  simp only [String.length_append, length_argumentDecls field.args]
  omega

private theorem length_fields (fields : List FieldDef) :
    (body (fields.map (field layout))).length =
      (body ((fields.map FieldDef.undescribed).map (field layout))).length +
        ((fields.flatMap FieldDef.args).map InputValue.described).sum := by
  unfold body
  rw [List.map_map, sum_map_flatMap]
  simp only [String.length_append,
    length_join_lines (g := field layout ∘ FieldDef.undescribed) (length_field layout) fields]
  omega

private theorem length_type (type : TypeDecl) :
    (SchemaText.type layout type).length =
      (SchemaText.type layout type.undescribed).length + (type.fieldArgs.map InputValue.described).sum := by
  unfold SchemaText.type typeBody TypeDecl.undescribed TypeDecl.fieldArgs TypeDecl.fields?
  cases type.body with
  | object body | interface body =>
    simp only [String.length_append, TypeBody.undescribed, ObjectBody.undescribed, TypeBody.keyword,
      length_fields layout body.fields, Option.getD_some]
    omega
  | scalar _ | union _ | enum _ | input _ | schema _ => rfl

private theorem length_directive (decl : DirectiveDecl) :
    (directive layout decl).length =
      (directive layout decl.undescribed).length + (decl.args.map InputValue.described).sum := by
  obtain ⟨name, description, args, locations, repeatable, pos, builtin⟩ := decl
  unfold directive
  dsimp only [DirectiveDecl.undescribed]
  cases repeatable <;>
    simp only [String.length_append, length_argumentDecls args, Bool.false_eq_true, if_false, if_true] <;> omega

end SchemaText

namespace Schema

private theorem text_undescribed (schema : Schema) (layout : SchemaLayout) :
    schema.undescribed.text layout =
      SchemaText.join "\n" (schema.declaration.toList.map (fun t => SchemaText.type layout t.undescribed) ++
        (schema.textDirectives layout).map (fun d => SchemaText.directive layout d.undescribed) ++
          (schema.textTypes layout).map fun t => SchemaText.type layout t.undescribed) := by
  have hrank (type : TypeDecl) : type.undescribed.body.rank = type.body.rank := by
    rw [TypeDecl.undescribed]
    cases type.body <;> rfl
  exact text_map (f := TypeDecl.undescribed) (g := DirectiveDecl.undescribed) rfl (fun t => ⟨rfl, rfl, hrank t⟩)
    fun _ => ⟨rfl, rfl⟩

/-- The descriptions of arguments add to a text what they take, whether or not the layout shows descriptions. -/
theorem length_text (schema : Schema) (layout : SchemaLayout) :
    (schema.text layout).length =
      (schema.undescribed.text layout).length + ((schema.textArgs layout).map InputValue.described).sum := by
  rw [text_undescribed]
  show (SchemaText.join "\n" (schema.declaration.toList.map (SchemaText.type layout) ++
    (schema.textDirectives layout).map (SchemaText.directive layout) ++
      (schema.textTypes layout).map (SchemaText.type layout))).length = _
  have htypes (types : List TypeDecl) : ((types.map (SchemaText.type layout)).map String.length).sum =
      ((types.map fun t => SchemaText.type layout t.undescribed).map String.length).sum +
        ((types.flatMap TypeDecl.fieldArgs).map InputValue.described).sum := by
    rw [SchemaText.sum_map_flatMap, List.map_map, List.map_map, ← List.sum_map_add]
    exact congrArg List.sum (List.map_congr_left fun t _ => SchemaText.length_type layout t)
  have hdirectives (directives : List DirectiveDecl) :
      ((directives.map (SchemaText.directive layout)).map String.length).sum =
        ((directives.map fun d => SchemaText.directive layout d.undescribed).map String.length).sum +
          ((directives.flatMap DirectiveDecl.args).map InputValue.described).sum := by
    rw [SchemaText.sum_map_flatMap, List.map_map, List.map_map, ← List.sum_map_add]
    exact congrArg List.sum (List.map_congr_left fun d _ => SchemaText.length_directive layout d)
  unfold textArgs
  simp only [SchemaText.length_join, List.length_append, List.length_map, List.map_append, List.sum_append, htypes,
    hdirectives]
  omega

/-- A text shows no description of an argument exactly if there is none to show. -/
theorem text_undescribed_iff (schema : Schema) (layout : SchemaLayout) :
    schema.undescribed.text layout = schema.text layout ↔
      ∀ arg ∈ schema.textArgs layout, arg.description = none := by
  refine ⟨fun h arg harg => ?_, fun h => ?_⟩
  · have hlength := schema.length_text layout
    rw [h, Nat.left_eq_add, List.sum_eq_zero_iff] at hlength
    exact arg.described_eq_zero_iff.1 (hlength _ (List.mem_map_of_mem harg))
  · unfold textArgs at h
    rw [List.forall_mem_append, List.forall_mem_append] at h
    obtain ⟨⟨hdeclaration, hdirectives⟩, htypes⟩ := h
    have hlines {types : List TypeDecl} (h : ∀ arg ∈ types.flatMap TypeDecl.fieldArgs, arg.description = none) :
        types.map (fun t => SchemaText.type layout t.undescribed) = types.map (SchemaText.type layout) :=
      List.map_congr_left fun t ht => by
        rw [TypeDecl.undescribed_eq fun arg harg => h arg (List.mem_flatMap.2 ⟨t, ht, harg⟩)]
    have hdirectives : (schema.textDirectives layout).map (fun d => SchemaText.directive layout d.undescribed) =
        (schema.textDirectives layout).map (SchemaText.directive layout) :=
      List.map_congr_left fun d hd => by
        rw [DirectiveDecl.undescribed_eq fun arg harg => hdirectives arg (List.mem_flatMap.2 ⟨d, hd, harg⟩)]
    rw [text_undescribed, hlines hdeclaration, hdirectives, hlines htypes]
    rfl

/-- In a layout without descriptions, schemas that differ in nothing but the descriptions of types, fields, symbols,
fields of input objects and directives have the same text, which is that of the schema without these in a layout that
shows descriptions. Without the descriptions of arguments it is the same exactly if the layout shows no argument that
has one. -/
theorem text_hides (builtins : Bool) {schema other : Schema}
    (h : schema.shown ⟨builtins, false⟩ = other.shown ⟨builtins, false⟩) :
    schema.text ⟨builtins, false⟩ = other.text ⟨builtins, false⟩ ∧
      schema.text ⟨builtins, false⟩ = (schema.shown ⟨builtins, false⟩).text ⟨builtins, true⟩ ∧
        (schema.undescribed.text ⟨builtins, false⟩ = schema.text ⟨builtins, false⟩ ↔
          ∀ arg ∈ schema.textArgs ⟨builtins, false⟩, arg.description = none) := by
  have hshown (schema : Schema) :
      (schema.shown ⟨builtins, false⟩).text ⟨builtins, true⟩ = schema.text ⟨builtins, false⟩ :=
    @text_shown ⟨builtins, false⟩ ⟨builtins, true⟩ rfl (fun _ => rfl) schema
  refine ⟨?_, (hshown schema).symm, schema.text_undescribed_iff _⟩
  rw [← hshown schema, ← hshown other, h]

/-- A type with a field that has an argument, each with a description or none. -/
private def remarked (type field arg : Option String) : Schema where
  types :=
    [{ name := "Query"
       description := type
       body := .object
         { fields :=
            [{ name := "song"
               description := field
               type := .named "String"
               args := [{ name := "title", description := arg, type := .named "String" }] }] } }]

/-- Only the description of the argument is seen. -/
theorem text_hides_described :
    (remarked (some "All.") (some "One\nof them.") (some "Its name.")).text ⟨true, false⟩ =
        (remarked none none (some "Its name.")).text ⟨true, false⟩ ∧
      (remarked none none none).text ⟨true, false⟩ ≠ (remarked none none (some "Its name.")).text ⟨true, false⟩ := by
  have hone := @text_hides true (remarked (some "All.") (some "One\nof them.") (some "Its name."))
    (remarked none none (some "Its name.")) rfl
  have hother := @text_hides true (remarked none none (some "Its name.")) _ rfl
  refine ⟨hone.1, fun htext => ?_⟩
  have hnone := hother.2.2.1 htext { name := "title", description := some "Its name.", type := .named "String" }
    (by simp [remarked, textArgs, textTypes, textDirectives, TypeDecl.fieldArgs, TypeDecl.fields?])
  cases hnone

end Schema

end GraphQL
