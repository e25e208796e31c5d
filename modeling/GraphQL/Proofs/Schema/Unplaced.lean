import GraphQL.Proofs.Schema.Order
import GraphQL.Proofs.Schema.Shown

/-!
# Declarations in other places

Where declarations stand in a text does not matter to what a schema makes of them. Without positions declarations are
put in as with them (`Schema.assemble_unplaced`), and schemas that are the same without positions, up to the order of
their types and directives, have the same dangling references, are valid alike and have the same text
(`Schema.declare?_resembling`).
-/

namespace GraphQL

/-- The error without its position. -/
def SchemaError.unplaced (error : SchemaError) : SchemaError := { error with pos := .start }

/-- The schema without positions, and with other references. -/
def Schema.unplaced (ref : TypeRef → TypeRef) (schema : Schema) : Schema where
  types := schema.types.map (TypeDecl.unplaced ref)
  directives := schema.directives.map (DirectiveDecl.unplaced ref)
  declaration := schema.declaration.map (TypeDecl.unplaced ref)

/-- The declaration as its text says it: without positions. -/
abbrev Declaration.plain : Declaration → Declaration := Declaration.unplaced TypeRef.unplaced

theorem TypeRef.baseName_unplaced (type : TypeRef) : type.unplaced.baseName = type.baseName := by
  induction type with
  | named _ | unresolved _ _ => rfl
  | list _ ih => exact ih
  | nonNull _ ih => exact ih

/-! ### Extensions -/

theorem addMembers_map {α : Type} [HasName α] {f : α → α} (hf : ∀ a, HasName.name (f a) = HasName.name a)
    (members more : List α) :
    addMembers (members.map f) (more.map f) = ((addMembers members more).1.map f, (addMembers members more).2) := by
  induction more generalizing members with
  | nil => rfl
  | cons a rest ih =>
    rw [List.map_cons, addMembers, addMembers, hf, Members.contains_map hf]
    split
    · rfl
    · rw [← ih, List.map_append]
      rfl

section Naturality

variable {ref : TypeRef → TypeRef} (href : ∀ type, (ref type).baseName = type.baseName)

private theorem map_baseName (types : List TypeRef) (href : ∀ type, (ref type).baseName = type.baseName) :
    (types.map ref).map TypeRef.baseName = types.map TypeRef.baseName := map_map_congr href types

include href

theorem addReferences_map (members more : List TypeRef) :
    addReferences (members.map ref) (more.map ref) =
      ((addReferences members more).1.map ref, (addReferences members more).2) := by
  induction more generalizing members with
  | nil => rfl
  | cons type rest ih =>
    rw [List.map_cons, addReferences, addReferences, map_baseName members href, href]
    split
    · rfl
    · rw [← ih, List.map_append]
      rfl

theorem addInterfaces_map (interfaces more : List TypeRef) :
    addInterfaces (interfaces.map ref) (more.map ref) = (addInterfaces interfaces more).map ref := by
  induction more generalizing interfaces with
  | nil => rfl
  | cons type rest ih =>
    rw [List.map_cons, addInterfaces, addInterfaces, map_baseName interfaces href, href]
    split
    · exact ih interfaces
    · rw [← ih, List.map_append]
      rfl

omit href in
private theorem addRoots_unplaced (roots more : SchemaRoots) :
    addRoots (roots.unplaced ref) (more.unplaced ref) =
      ((addRoots roots more).1.unplaced ref, (addRoots roots more).2) := by
  obtain ⟨query, mutation, subscription⟩ := roots
  obtain ⟨query', mutation', subscription'⟩ := more
  unfold addRoots SchemaRoots.unplaced
  cases query <;> cases query' <;> cases mutation <;> cases mutation' <;> cases subscription <;>
    cases subscription' <;> rfl

private theorem objectExtend_unplaced (body more : ObjectBody) :
    (body.unplaced ref).extend (more.unplaced ref) = ((body.extend more).1.unplaced ref, (body.extend more).2) := by
  simp only [ObjectBody.extend, ObjectBody.unplaced, addInterfaces_map href,
    addMembers_map (f := FieldDef.unplaced ref) fun _ => rfl]

private theorem bodyExtend_unplaced (body more : TypeBody) :
    (body.unplaced ref).extend (more.unplaced ref) = ((body.extend more).1.unplaced ref, (body.extend more).2) := by
  cases body <;> cases more <;>
    simp only [TypeBody.unplaced, TypeBody.extend, objectExtend_unplaced href, addReferences_map href,
      addRoots_unplaced, addMembers_map (f := EnumValue.unplaced) fun _ => rfl,
      addMembers_map (f := InputValue.unplaced ref) fun _ => rfl]

omit href in
private theorem keyword_unplaced (body : TypeBody) : (body.unplaced ref).keyword = body.keyword := by cases body <;> rfl

theorem TypeDecl.extend_unplaced (type more : TypeDecl) :
    (type.unplaced ref).extend (more.unplaced ref) =
      ((type.extend more).1.unplaced ref, (type.extend more).2.map SchemaError.unplaced) := by
  unfold TypeDecl.extend
  simp only [TypeDecl.unplaced, keyword_unplaced, bodyExtend_unplaced href]
  split
  · simp only [List.map_append]
    cases (type.body.extend more.body).2 <;> rfl
  · rfl

namespace Schema

variable (schema : Schema)

/-! ### Putting in -/

omit href in
private theorem hasType_unplaced (name : String) : (schema.unplaced ref).hasType name = schema.hasType name :=
  Members.contains_map fun _ => rfl

omit href in
private theorem insertType_unplaced (type : TypeDecl) :
    (schema.unplaced ref).insertType (type.unplaced ref) =
      ((schema.insertType type).1.unplaced ref, (schema.insertType type).2.map SchemaError.unplaced) := by
  have hdeclaration : (schema.unplaced ref).declaration.isSome = schema.declaration.isSome := Option.isSome_map
  have htype : (type.unplaced ref).name = type.name := rfl
  unfold insertType
  rw [hdeclaration, htype, hasType_unplaced]
  cases hbody : type.body with
  | schema roots =>
    have hbody : (type.unplaced ref).body = .schema (roots.unplaced ref) := by rw [TypeDecl.unplaced, hbody]; rfl
    rw [hbody]
    dsimp only
    split <;> rfl
  | scalar _ | object _ | interface _ | union _ | enum _ | input _ =>
    rw [TypeDecl.unplaced, hbody]
    simp only [TypeBody.unplaced]
    split
    · rfl
    · simp [Schema.unplaced, TypeDecl.unplaced, hbody, TypeBody.unplaced]

omit href in
private theorem insertDirective_unplaced (decl : DirectiveDecl) :
    (schema.unplaced ref).insertDirective (decl.unplaced ref) =
      ((schema.insertDirective decl).1.unplaced ref, (schema.insertDirective decl).2.map SchemaError.unplaced) := by
  have hcontains : Members.contains decl.name (schema.unplaced ref).directives =
      Members.contains decl.name schema.directives := Members.contains_map fun _ => rfl
  unfold insertDirective
  rw [show (decl.unplaced ref).name = decl.name from rfl, hcontains]
  split
  · rfl
  · simp [Schema.unplaced]

omit href in
private theorem insert_unplaced (d : Declaration) :
    (schema.unplaced ref).insert (d.unplaced ref) =
      ((schema.insert d).1.unplaced ref, (schema.insert d).2.map SchemaError.unplaced) := by
  cases d with
  | type type => exact schema.insertType_unplaced type
  | directive decl => exact schema.insertDirective_unplaced decl
  | extension more => rfl

omit href in
private theorem extended?_unplaced (more : TypeDecl) :
    (schema.unplaced ref).extended? (more.unplaced ref) = (schema.extended? more).map (TypeDecl.unplaced ref) := by
  unfold extended?
  rw [TypeDecl.unplaced]
  cases more.body with
  | schema roots => rfl
  | scalar _ | object _ | interface _ | union _ | enum _ | input _ => exact Members.get?_map fun _ => rfl

omit href in
private theorem replace_unplaced (more type : TypeDecl) :
    (schema.unplaced ref).replace (more.unplaced ref) (type.unplaced ref) = (schema.replace more type).unplaced ref := by
  have hput : Members.put (type.unplaced ref) (schema.types.map (TypeDecl.unplaced ref)) =
      (Members.put type schema.types).map (TypeDecl.unplaced ref) :=
    Members.put_map (f := TypeDecl.unplaced ref) fun _ => rfl
  unfold replace
  rw [show (more.unplaced ref).body = more.body.unplaced ref from rfl]
  cases more.body with
  | schema roots => rfl
  | scalar _ | object _ | interface _ | union _ | enum _ | input _ =>
    simp only [TypeBody.unplaced, Schema.unplaced, hput]

private theorem extend_unplaced (d : Declaration) :
    (schema.unplaced ref).extend (d.unplaced ref) =
      ((schema.extend d).1.unplaced ref, (schema.extend d).2.map SchemaError.unplaced) := by
  cases d with
  | type type => rfl
  | directive decl => rfl
  | extension more =>
    show (schema.unplaced ref).extend (.extension (more.unplaced ref)) = _
    unfold extend
    dsimp only
    rw [extended?_unplaced]
    cases schema.extended? more with
    | none =>
      rw [Option.map_none, show (more.unplaced ref).body = more.body.unplaced ref from rfl, keyword_unplaced]
      rfl
    | some type =>
      rw [Option.map_some]
      dsimp only
      rw [TypeDecl.extend_unplaced href, replace_unplaced]

omit href in
private theorem steps_unplaced {step : Schema → Declaration → Schema × List SchemaError}
    (hstep : ∀ (schema : Schema) (d : Declaration), step (schema.unplaced ref) (d.unplaced ref) =
      ((step schema d).1.unplaced ref, (step schema d).2.map SchemaError.unplaced)) (declarations : List Declaration) :
    steps step (schema.unplaced ref) (declarations.map (Declaration.unplaced ref)) =
      ((steps step schema declarations).1.unplaced ref, (steps step schema declarations).2.map SchemaError.unplaced) := by
  induction declarations generalizing schema with
  | nil => rfl
  | cons d rest ih =>
    rw [List.map_cons, steps, steps, hstep]
    dsimp only
    rw [ih, List.map_append]

/-- Declarations without positions are put in as with them. -/
theorem assemble_unplaced (declarations : List Declaration) :
    (schema.unplaced ref).assemble (declarations.map (Declaration.unplaced ref)) =
      ((schema.assemble declarations).1.unplaced ref,
        (schema.assemble declarations).2.map SchemaError.unplaced) := by
  unfold assemble
  rw [steps_unplaced schema insert_unplaced]
  dsimp only
  rw [steps_unplaced _ fun schema d => extend_unplaced href schema d, List.map_append]

end Schema

end Naturality

/-! ### Schemas that resemble each other -/

/-- Choosing and sorting look at nothing that `f` changes. -/
private theorem sorted_map {α : Type} {f : α → α} {le : α → α → Bool} {kept kept' : α → Bool}
    (hle : ∀ a b, le (f a) (f b) = le a b) (hkept : ∀ a, kept' (f a) = kept a) (members : List α) :
    ((members.map f).filter kept').mergeSort le = ((members.filter kept).mergeSort le).map f := by
  have hfilter : (members.map f).filter kept' = (members.filter kept).map f := by
    rw [List.filter_map]
    simp only [Function.comp_def, hkept]
  rw [hfilter, ← List.map_mergeSort fun a _ b _ => (hle a b).symm]

namespace Schema

variable {schema other : Schema}

/-- The directives that the layout shows, in the order of a text. -/
def textDirectives (layout : SchemaLayout) (schema : Schema) : List DirectiveDecl :=
  (schema.directives.filter fun d => layout.builtins || !d.builtin).mergeSort SchemaText.directiveLe

/-- The types that the layout shows, in the order of a text. -/
def textTypes (layout : SchemaLayout) (schema : Schema) : List TypeDecl :=
  (schema.types.filter fun t => layout.builtins || !t.builtin).mergeSort SchemaText.typeLe

/-- Where declarations are changed, but not in what the order of a text goes by, each stands at its place. -/
theorem text_map {f : TypeDecl → TypeDecl} {g : DirectiveDecl → DirectiveDecl} {layout full : SchemaLayout}
    (hbuiltins : full.builtins = layout.builtins)
    (hf : ∀ t, (f t).name = t.name ∧ (f t).builtin = t.builtin ∧ (f t).body.rank = t.body.rank)
    (hg : ∀ d, (g d).name = d.name ∧ (g d).builtin = d.builtin) :
    (⟨schema.types.map f, schema.directives.map g, schema.declaration.map f⟩ : Schema).text full =
      SchemaText.join "\n" (schema.declaration.toList.map (fun t => SchemaText.type full (f t)) ++
        (schema.textDirectives layout).map (fun d => SchemaText.directive full (g d)) ++
          (schema.textTypes layout).map fun t => SchemaText.type full (f t)) := by
  have htypes : ((schema.types.map f).filter fun t => full.builtins || !t.builtin).mergeSort SchemaText.typeLe =
      (schema.textTypes layout).map f := by
    refine sorted_map (fun a b => ?_) (fun t => by rw [hbuiltins, (hf t).2.1]) _
    simp only [SchemaText.typeLe, hf]
  have hdirectives : ((schema.directives.map g).filter fun d => full.builtins || !d.builtin).mergeSort
      SchemaText.directiveLe = (schema.textDirectives layout).map g := by
    refine sorted_map (fun a b => ?_) (fun d => by rw [hbuiltins, (hg d).2]) _
    simp only [SchemaText.directiveLe, hg]
  unfold text
  dsimp only
  rw [htypes, hdirectives, Option.toList_map, List.map_map, List.map_map, List.map_map]
  rfl

/-- A text does not show where declarations stand. -/
theorem text_unplaced (layout : SchemaLayout) : (schema.unplaced id).text layout = schema.text layout := by
  have hrank (type : TypeDecl) : (type.unplaced id).body.rank = type.body.rank := by
    rw [TypeDecl.unplaced]
    cases type.body <;> rfl
  refine (text_map (f := TypeDecl.unplaced id) (g := DirectiveDecl.unplaced id) rfl (fun t => ⟨rfl, rfl, hrank t⟩)
    fun _ => ⟨rfl, rfl⟩).trans ?_
  simp only [SchemaText.type_unplaced, SchemaText.directive_unplaced]
  rfl

/-! ### The same text -/

/-- The schemas differ at most in positions and in the order of their types and directives. -/
def Resembles (schema other : Schema) : Prop := (schema.unplaced id).Shuffled (other.unplaced id)

theorem Shuffled.unplaced (h : schema.Shuffled other) (ref : TypeRef → TypeRef) :
    (schema.unplaced ref).Shuffled (other.unplaced ref) where
  types := h.types.map _
  directives := h.directives.map _
  declaration := congrArg (Option.map _) h.declaration

theorem Orderly.unplaced (h : schema.Orderly) (ref : TypeRef → TypeRef) : (schema.unplaced ref).Orderly :=
  h.map (fun _ => rfl) (fun _ => rfl) fun type => by
    unfold TypeDecl.unplaced
    cases type.body <;> simp [TypeBody.unplaced]

theorem unplaced_resolved : schema.resolved.unplaced id = schema.unplaced TypeRef.resolved := by
  unfold Schema.unplaced resolved
  rw [map_map_congr TypeDecl.unplaced_resolved, map_map_congr DirectiveDecl.unplaced_resolved, Option.map_map]
  congr 1
  exact congrArg (Option.map · _) (funext TypeDecl.unplaced_resolved)

theorem unplaced_unplaced (f g : TypeRef → TypeRef) : (schema.unplaced f).unplaced g = schema.unplaced (g ∘ f) := by
  unfold Schema.unplaced
  rw [map_map_congr (TypeDecl.unplaced_unplaced f g), map_map_congr (DirectiveDecl.unplaced_unplaced f g),
    Option.map_map]
  congr 1
  exact congrArg (Option.map · _) (funext (TypeDecl.unplaced_unplaced f g))

namespace Resembles

theorem alike (h : schema.Resembles other) (horderly : schema.Orderly) : schema.Alike other := by
  have htypes (types : List TypeDecl) : (types.map (TypeDecl.unplaced id)).map TypeDecl.bare = types.map TypeDecl.bare :=
    map_map_congr TypeDecl.bare_unplaced types
  have hdirectives (directives : List DirectiveDecl) :
      (directives.map (DirectiveDecl.unplaced id)).map DirectiveDecl.bare = directives.map DirectiveDecl.bare :=
    map_map_congr DirectiveDecl.bare_unplaced directives
  have hdeclaration (declaration : Option TypeDecl) :
      (declaration.map (TypeDecl.unplaced id)).map TypeDecl.bare = declaration.map TypeDecl.bare := by
    rw [Option.map_map]
    exact congrArg (Option.map · _) (funext TypeDecl.bare_unplaced)
  have hbare := Shuffled.alike h (horderly.unplaced id)
  refine ⟨?_, ?_, ?_, horderly.types, horderly.directives⟩
  · simpa only [Schema.unplaced, htypes] using hbare.types
  · simpa only [Schema.unplaced, hdirectives] using hbare.directives
  · simpa only [Schema.unplaced, hdeclaration] using hbare.declaration

theorem normal (h : schema.Resembles other) (horderly : schema.Orderly) : schema.normal.Resembles other.normal := by
  have hnormal (schema : Schema) : schema.normal.unplaced id =
      { types := (schema.unplaced id).types.map schema.coercion.normalType
        directives := (schema.unplaced id).directives.map schema.coercion.normalDirective
        declaration := (schema.unplaced id).declaration.map schema.coercion.normalType } := by
    show Schema.unplaced id ⟨schema.types.map schema.coercion.normalType,
      schema.directives.map schema.coercion.normalDirective,
      schema.declaration.map schema.coercion.normalType⟩ = _
    unfold Schema.unplaced
    rw [map_map_comm (schema.coercion.normalType_unplaced), map_map_comm (schema.coercion.normalDirective_unplaced),
      Option.map_map, Option.map_map]
    congr 1
    exact congrArg (Option.map · _) (funext schema.coercion.normalType_unplaced)
  have halike := h.alike horderly
  unfold Resembles
  rw [hnormal, hnormal, halike.normalType, halike.normalDirective]
  exact ⟨h.types.map _, h.directives.map _, congrArg (Option.map _) h.declaration⟩

theorem text (h : schema.Resembles other) (horderly : schema.Orderly) (layout : SchemaLayout) :
    schema.text layout = other.text layout := by
  rw [← text_unplaced, ← other.text_unplaced]
  exact Shuffled.text h (horderly.unplaced id) layout

end Resembles

/-! ### Dangling references -/

private theorem types_unplaced (ref : TypeRef → TypeRef) (args : List InputValue) :
    (args.map (InputValue.unplaced ref)).map InputValue.type = (args.map InputValue.type).map ref := by
  rw [List.map_map, List.map_map]
  rfl

private theorem references_unplacedBody (ref : TypeRef → TypeRef) (body : TypeBody) :
    (body.unplaced ref).references = body.references.map ref := by
  have hfields (fields : List FieldDef) :
      ((fields.map (FieldDef.unplaced ref)).flatMap fun field => field.type :: field.args.map InputValue.type) =
        (fields.flatMap fun field => field.type :: field.args.map InputValue.type).map ref := by
    rw [List.flatMap_map, List.map_flatMap]
    refine List.flatMap_congr fun field _ => ?_
    rw [List.map_cons, ← types_unplaced]
    rfl
  cases body with
  | scalar _ | enum _ => rfl
  | object body | interface body =>
    simp only [TypeBody.unplaced, ObjectBody.unplaced, TypeBody.references, hfields, List.map_append]
  | union members => rfl
  | input fields => exact types_unplaced ref fields
  | schema roots =>
    simp only [TypeBody.unplaced, SchemaRoots.unplaced, TypeBody.references, List.map_append, Option.toList_map]

theorem references_unplaced (ref : TypeRef → TypeRef) :
    (schema.unplaced ref).references = schema.references.map ref := by
  unfold references Schema.unplaced
  rw [Option.toList_map, ← List.map_append, List.flatMap_map, List.flatMap_map, List.map_append, List.map_flatMap,
    List.map_flatMap]
  congr 1
  · exact List.flatMap_congr fun type _ => references_unplacedBody ref type.body
  · exact List.flatMap_congr fun decl _ => types_unplaced ref decl.args

/-- Where a name stands does not matter to whether something declares it. -/
theorem danglingFaults_unplaced :
    (schema.unplaced TypeRef.unplaced).danglingFaults = schema.danglingFaults.map SchemaError.unplaced := by
  have hfault (type : TypeRef) : (schema.unplaced TypeRef.unplaced).danglingFault? type.unplaced =
      (schema.danglingFault? type).map SchemaError.unplaced := by
    unfold danglingFault?
    induction type with
    | named name | unresolved name pos =>
      simp only [TypeRef.unplaced, undefined?, hasType_unplaced]
      cases schema.hasType name <;> rfl
    | list item ih => exact ih
    | nonNull inner ih => exact ih
  unfold danglingFaults
  rw [references_unplaced, List.filterMap_map, List.map_filterMap]
  exact List.filterMap_congr fun type _ => hfault type

/-! ### Declaring -/

section Declaring

variable {next : Schema} {declarations others : List Declaration}

/-- What has been put in resolves to schemas that resemble each other if it does so without positions. -/
private theorem Shuffled.resolving {assembled assembled' : Schema}
    (h : (assembled.unplaced TypeRef.unplaced).Shuffled (assembled'.unplaced TypeRef.unplaced)) :
    assembled.resolved.Resembles assembled'.resolved := by
  unfold Resembles
  rw [unplaced_resolved, unplaced_resolved, ← TypeRef.resolved_comp_unplaced, ← unplaced_unplaced, ← unplaced_unplaced]
  exact h.unplaced _

/-- Only what has been put in matters to whether declarations are accepted and to what comes out, and of that neither
positions nor the order of types and directives. -/
theorem declare?_resembling (h : schema.Orderly)
    (hassembled : (schema.assemble declarations).2 = [] → (schema.assemble others).2 = [] ∧
      ((schema.assemble declarations).1.unplaced TypeRef.unplaced).Shuffled
        ((schema.assemble others).1.unplaced TypeRef.unplaced))
    (hnext : schema.declare? declarations = .ok next) :
    ∃ other, schema.declare? others = .ok other ∧ ∀ layout, next.text layout = other.text layout := by
  obtain ⟨herrors, hdangling, hfaults, rfl⟩ := declare?_eq_ok_iff.1 hnext
  obtain ⟨herrors', hshuffled⟩ := hassembled herrors
  have horderly := (h.assemble declarations).resolved
  have hresolved := hshuffled.resolving
  have hdangling' : (schema.assemble others).1.danglingFaults = [] := by
    refine List.map_eq_nil_iff.1 (danglingFaults_unplaced.symm.trans (hshuffled.danglingFaults ?_))
    rw [danglingFaults_unplaced, hdangling]
    rfl
  refine ⟨_, declare?_eq_ok_iff.2 ⟨herrors', hdangling', (hresolved.alike horderly).faults hfaults, rfl⟩, ?_⟩
  exact (hresolved.normal horderly).text horderly.normal

/-- Batches of which one is accepted if the other is, with the same text, lead to schemas of the same text. -/
theorem add_congr
    (hthere : ∀ next, schema.declare? declarations = .ok next →
      ∃ other, schema.declare? others = .ok other ∧ ∀ layout, next.text layout = other.text layout)
    (hback : ∀ other, schema.declare? others = .ok other → ∃ next, schema.declare? declarations = .ok next) :
    ((schema.add declarations).2 = [] ↔ (schema.add others).2 = []) ∧
      ∀ layout, (schema.add declarations).1.text layout = (schema.add others).1.text layout := by
  cases hnext : schema.declare? declarations with
  | ok next =>
    obtain ⟨other, hother, htext⟩ := hthere next hnext
    rw [add_of_ok hnext, add_of_ok hother]
    exact ⟨Iff.rfl, htext⟩
  | error errors =>
    cases hother : schema.declare? others with
    | ok other =>
      obtain ⟨next, hnext'⟩ := hback other hother
      rw [hnext] at hnext'
      cases hnext'
    | error errors' =>
      have hne {errors : List SchemaError} {batch : List Declaration} (h : schema.declare? batch = .error errors) :
          errors ≠ [] := by
        rintro rfl
        exact declare?_ne_error_nil h
      rw [add_of_error hnext, add_of_error hother]
      exact ⟨iff_of_false (hne hnext) (hne hother), fun _ => rfl⟩

end Declaring

end Schema

end GraphQL
