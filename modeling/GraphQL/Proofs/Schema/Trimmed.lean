import GraphQL.Proofs.Schema.Reloaded
import GraphQL.Proofs.Schema.Undescribed

/-!
# Texts without descriptions that are loaded again

A text that leaves descriptions out is a text of the schema without them. What is built in is never written, so it keeps
its descriptions (`Schema.trimmed`). A schema that is loaded is so without descriptions too (`Schema.LoadedOn.trimmed`),
and every text that keeps what it shows is loaded again, with the same text (`Schema.LoadedOn.reload_trimmed`).
-/

namespace GraphQL

section Shown

variable {layout : SchemaLayout}

private theorem shown_eq_some {description : Option String} {text : String} (h : layout.shown description = some text) :
    description = some text ∧ layout.descriptions = true := by
  unfold SchemaLayout.shown at h
  split at h
  · exact ⟨h, ‹_›⟩
  · cases h

/-! ### What is shown of a declaration -/

section Details

variable {P : Detail → Prop}

private theorem forall_shown_description {description : Option String}
    (h : ∀ text ∈ description, layout.Shows (.description text) → P (.description text)) :
    ∀ text ∈ layout.shown description, P (.description text) := fun text htext =>
  h text (shown_eq_some htext).1 (shown_eq_some htext).2

private theorem forall_input_details {value : InputValue}
    (h : ∀ detail ∈ value.details, layout.Shows detail → P detail) : ∀ detail ∈ value.details, P detail := by
  obtain ⟨hname, htype, hdefault, huses⟩ := InputValue.forall_details_iff.1 h
  exact InputValue.forall_details_iff.2
    ⟨hname trivial, htype trivial, fun v hv => hdefault v hv trivial, fun use huse => huses use huse trivial⟩

private theorem forall_shown_body {owner : String} {body : TypeBody}
    (h : ∀ detail ∈ body.details owner, layout.Shows detail → P detail) :
    ∀ detail ∈ (body.shown layout).details owner, P detail := by
  have hobject {body : ObjectBody} (h : ∀ detail ∈ body.details, layout.Shows detail → P detail) :
      ∀ detail ∈ (body.shown layout).details, P detail := by
    obtain ⟨hinterfaces, hfields⟩ := ObjectBody.forall_details_iff.1 h
    refine ObjectBody.forall_details_iff.2 ⟨fun type htype => hinterfaces type htype trivial, ?_⟩
    refine List.forall_mem_map.2 fun field hfield => ?_
    obtain ⟨hname, htype, hdescription, hargs, huses⟩ := FieldDef.forall_details_iff.1 (hfields field hfield)
    exact FieldDef.forall_details_iff.2 ⟨hname trivial, htype trivial, forall_shown_description hdescription,
      fun arg harg => forall_input_details (hargs arg harg), fun use huse => huses use huse trivial⟩
  cases body with
  | scalar kind =>
    obtain ⟨hname, hkind⟩ := List.forall_mem_cons.1 h
    exact List.forall_mem_cons.2 ⟨hname trivial, List.forall_mem_singleton.2 (List.forall_mem_singleton.1 hkind trivial)⟩
  | object body | interface body =>
    obtain ⟨hname, hbody⟩ := List.forall_mem_cons.1 h
    exact List.forall_mem_cons.2 ⟨hname trivial, hobject hbody⟩
  | union _ | schema _ =>
    obtain ⟨hname, hmembers⟩ := List.forall_mem_cons.1 h
    refine List.forall_mem_cons.2 ⟨hname trivial, List.forall_mem_map.2 fun type htype => ?_⟩
    exact List.forall_mem_map.1 hmembers type htype trivial
  | enum values =>
    obtain ⟨hname, hvalues⟩ := List.forall_mem_cons.1 h
    refine List.forall_mem_cons.2 ⟨hname trivial, List.forall_mem_flatMap.2 (List.forall_mem_map.2 fun value hvalue => ?_)⟩
    obtain ⟨hname, hdescription, huses⟩ :=
      EnumValue.forall_details_iff.1 (List.forall_mem_flatMap.1 hvalues value hvalue)
    exact EnumValue.forall_details_iff.2
      ⟨hname trivial, forall_shown_description hdescription, fun use huse => huses use huse trivial⟩
  | input fields =>
    obtain ⟨hname, hfields⟩ := List.forall_mem_cons.1 h
    refine List.forall_mem_cons.2 ⟨hname trivial, List.forall_mem_flatMap.2 (List.forall_mem_map.2 fun field hfield => ?_)⟩
    obtain ⟨hdescription, hfield⟩ :=
      InputValue.forall_fieldDetails_iff.1 (List.forall_mem_flatMap.1 hfields field hfield)
    exact InputValue.forall_fieldDetails_iff.2 ⟨forall_shown_description hdescription, forall_input_details hfield⟩

/-- A shown declaration says what the layout shows of it. -/
theorem TypeDecl.forall_shown {type : TypeDecl} (h : ∀ detail ∈ type.details, layout.Shows detail → P detail) :
    ∀ detail ∈ (type.shown layout).details, P detail := by
  obtain ⟨hdescription, huses, hbody⟩ := TypeDecl.forall_details_iff.1 h
  exact TypeDecl.forall_details_iff.2 ⟨forall_shown_description hdescription, fun use huse => huses use huse trivial,
    forall_shown_body hbody⟩

theorem DirectiveDecl.forall_shown {decl : DirectiveDecl} (h : ∀ detail ∈ decl.details, layout.Shows detail → P detail) :
    ∀ detail ∈ (decl.shown layout).details, P detail := by
  obtain ⟨hname, hplaces, hdescription, hargs⟩ := DirectiveDecl.forall_details_iff.1 h
  exact DirectiveDecl.forall_details_iff.2 ⟨hname trivial, hplaces trivial, forall_shown_description hdescription,
    fun arg harg => forall_input_details (hargs arg harg)⟩

end Details

private theorem TypeDecl.bare_shown (type : TypeDecl) : (type.shown layout).bare = type.bare := by
  have hfields (fields : List FieldDef) : (fields.map (FieldDef.shown layout)).map FieldDef.bare = fields.map FieldDef.bare :=
    map_map_congr (fun _ => rfl) fields
  have hvalues (values : List EnumValue) :
      (values.map (EnumValue.shown layout)).map EnumValue.bare = values.map EnumValue.bare :=
    map_map_congr (fun _ => rfl) values
  have hinputs (fields : List InputValue) :
      (fields.map (InputValue.shown layout)).map InputValue.bare = fields.map InputValue.bare :=
    map_map_congr (fun _ => rfl) fields
  unfold TypeDecl.bare TypeDecl.shown
  cases type.body <;> simp only [TypeBody.shown, TypeBody.bare, ObjectBody.shown, ObjectBody.bare, hfields, hvalues, hinputs]

private theorem TypeBody.uses_shown (body : TypeBody) : (body.shown layout).uses = body.uses := by
  have hfields (fields : List FieldDef) :
      (fields.map (FieldDef.shown layout)).flatMap FieldDef.uses = fields.flatMap FieldDef.uses := List.flatMap_map ..
  cases body with
  | object body | interface body => simp only [TypeBody.shown, ObjectBody.shown, TypeBody.uses, hfields]
  | input fields => exact map_map_congr (fun _ => rfl) fields
  | scalar _ | union _ | enum _ | schema _ => rfl

private theorem TypeBody.Distinct.shown {body : TypeBody} (h : body.Distinct) : (body.shown layout).Distinct := by
  have hobject {body : ObjectBody} (h : (TypeBody.object body).Distinct) :
      (TypeBody.object (body.shown layout)).Distinct :=
    ⟨h.1.map fun _ => rfl, List.forall_mem_map.2 h.2⟩
  cases body with
  | object body => exact hobject h
  | interface body => exact hobject h
  | enum values | input fields => exact Members.Distinct.map h fun _ => rfl
  | scalar _ | union _ | schema _ => trivial

end Shown

/-! ### Trimmed schemas -/

section Trimmed

variable (layout : SchemaLayout)

/-- The declaration with the descriptions that are shown, if it is shown. -/
def TypeDecl.trimmed (type : TypeDecl) : TypeDecl := if type.builtin then type else type.shown layout

def DirectiveDecl.trimmed (decl : DirectiveDecl) : DirectiveDecl := if decl.builtin then decl else decl.shown layout

/-- The schema with what is built in, and the descriptions that a text shows of the rest. -/
def Schema.trimmed (schema : Schema) : Schema where
  types := schema.types.map (TypeDecl.trimmed layout)
  directives := schema.directives.map (DirectiveDecl.trimmed layout)
  declaration := schema.declaration.map (TypeDecl.trimmed layout)

end Trimmed

section Declarations

variable {layout : SchemaLayout}

theorem TypeDecl.trimmed_of_builtin {type : TypeDecl} (h : type.builtin = true) : type.trimmed layout = type := if_pos h

theorem TypeDecl.trimmed_of_declared {type : TypeDecl} (h : type.builtin = false) :
    type.trimmed layout = type.shown layout := if_neg (by simp [h])

theorem DirectiveDecl.trimmed_of_builtin {decl : DirectiveDecl} (h : decl.builtin = true) :
    decl.trimmed layout = decl := if_pos h

theorem DirectiveDecl.trimmed_of_declared {decl : DirectiveDecl} (h : decl.builtin = false) :
    decl.trimmed layout = decl.shown layout := if_neg (by simp [h])

@[simp]
private theorem TypeDecl.name_trimmed (type : TypeDecl) : (type.trimmed layout).name = type.name := by
  unfold TypeDecl.trimmed
  split <;> rfl

@[simp]
private theorem TypeDecl.builtin_trimmed (type : TypeDecl) : (type.trimmed layout).builtin = type.builtin := by
  unfold TypeDecl.trimmed
  split <;> rfl

@[simp]
private theorem TypeDecl.rank_trimmed (type : TypeDecl) : (type.trimmed layout).body.rank = type.body.rank := by
  unfold TypeDecl.trimmed TypeDecl.shown
  split
  · rfl
  · cases type.body <;> rfl

private theorem TypeDecl.bare_trimmed (type : TypeDecl) : (type.trimmed layout).bare = type.bare := by
  unfold TypeDecl.trimmed
  split
  · rfl
  · exact type.bare_shown

private theorem TypeDecl.uses_trimmed (type : TypeDecl) : (type.trimmed layout).body.uses = type.body.uses := by
  unfold TypeDecl.trimmed
  split
  · rfl
  · exact type.body.uses_shown

private theorem TypeDecl.admits_trimmed (role : Role) (type : TypeDecl) :
    role.admits (type.trimmed layout) = role.admits type := by
  unfold TypeDecl.trimmed TypeDecl.shown
  split
  · rfl
  · cases role <;> simp only [Role.admits, TypeDecl.isOutput, TypeDecl.isInput, TypeDecl.isObject, TypeDecl.isInterface]
      <;> cases type.body <;> rfl

@[simp]
private theorem DirectiveDecl.name_trimmed (decl : DirectiveDecl) : (decl.trimmed layout).name = decl.name := by
  unfold DirectiveDecl.trimmed
  split <;> rfl

@[simp]
private theorem DirectiveDecl.builtin_trimmed (decl : DirectiveDecl) : (decl.trimmed layout).builtin = decl.builtin := by
  unfold DirectiveDecl.trimmed
  split <;> rfl

private theorem DirectiveDecl.args_trimmed (decl : DirectiveDecl) : (decl.trimmed layout).args = decl.args := by
  unfold DirectiveDecl.trimmed
  split <;> rfl

private theorem DirectiveDecl.bare_trimmed (decl : DirectiveDecl) : (decl.trimmed layout).bare = decl.bare := by
  unfold DirectiveDecl.trimmed
  split <;> rfl

end Declarations

namespace Schema

variable {schema base : Schema} {layout : SchemaLayout}

private theorem alike_trimmed (horderly : schema.Orderly) : schema.Alike (schema.trimmed layout) where
  types := by
    rw [trimmed, map_map_congr TypeDecl.bare_trimmed]
  directives := by
    rw [trimmed, map_map_congr DirectiveDecl.bare_trimmed]
  declaration := by
    rw [trimmed, Option.map_map]
    exact congrArg (Option.map · _) (funext fun type => type.bare_trimmed.symm)
  distinctTypes := horderly.types
  distinctDirectives := horderly.directives

private theorem all_trimmed : (schema.trimmed layout).types ++ (schema.trimmed layout).declaration.toList =
    (schema.types ++ schema.declaration.toList).map (TypeDecl.trimmed layout) := by
  simp only [trimmed, List.map_append, Option.toList_map]

private theorem uses_trimmed : (schema.trimmed layout).uses = schema.uses := by
  unfold uses
  rw [all_trimmed, List.flatMap_map]
  simp only [TypeDecl.uses_trimmed, trimmed, List.flatMap_map, DirectiveDecl.args_trimmed]

/-- What holds of all that is shown, and of what is built in, holds of all that a trimmed schema says. -/
private theorem forall_trimmed_details {P : Detail → Prop} (h : ∀ detail ∈ schema.details, P detail) :
    ∀ detail ∈ (schema.trimmed layout).details, P detail := by
  obtain ⟨htypes, hdirectives⟩ := Schema.forall_details_iff.1 h
  refine Schema.forall_details_iff.2 ⟨?_, List.forall_mem_map.2 fun decl hdecl => ?_⟩
  · rw [all_trimmed]
    refine List.forall_mem_map.2 fun type htype => ?_
    unfold TypeDecl.trimmed
    split
    · exact htypes type htype
    · exact TypeDecl.forall_shown fun detail hdetail _ => htypes type htype detail hdetail
  · unfold DirectiveDecl.trimmed
    split
    · exact hdirectives decl hdecl
    · exact DirectiveDecl.forall_shown fun detail hdetail _ => hdirectives decl hdecl detail hdetail

private theorem DeclaredOn.trimmed (h : schema.DeclaredOn base) : (schema.trimmed layout).DeclaredOn base where
  types := by
    show (schema.types.map (TypeDecl.trimmed layout)).filter TypeDecl.builtin = base.types
    rw [List.filter_map, show TypeDecl.builtin ∘ TypeDecl.trimmed layout = TypeDecl.builtin from
      funext TypeDecl.builtin_trimmed]
    exact (map_eq_self_iff.2 fun type htype => TypeDecl.trimmed_of_builtin (List.mem_filter.1 htype).2).trans h.types
  directives := by
    show (schema.directives.map (DirectiveDecl.trimmed layout)).filter DirectiveDecl.builtin = base.directives
    rw [List.filter_map, show DirectiveDecl.builtin ∘ DirectiveDecl.trimmed layout = DirectiveDecl.builtin from
      funext DirectiveDecl.builtin_trimmed]
    exact (map_eq_self_iff.2 fun decl hdecl => DirectiveDecl.trimmed_of_builtin (List.mem_filter.1 hdecl).2).trans
      h.directives
  declaration := by
    rintro _ hother
    obtain ⟨type, htype, rfl⟩ := Option.map_eq_some_iff.1 hother
    exact type.builtin_trimmed.trans (h.declaration type htype)
  said := by
    rw [all_trimmed]
    refine List.forall_mem_map.2 fun type htype hbuiltin => ?_
    rw [TypeDecl.builtin_trimmed] at hbuiltin
    rw [TypeDecl.trimmed_of_declared hbuiltin]
    exact TypeDecl.forall_shown fun detail hdetail _ => h.said type htype hbuiltin detail hdetail
  saidDirectives := by
    refine List.forall_mem_map.2 fun decl hdecl hbuiltin => ?_
    rw [DirectiveDecl.builtin_trimmed] at hbuiltin
    rw [DirectiveDecl.trimmed_of_declared hbuiltin]
    exact DirectiveDecl.forall_shown fun detail hdetail _ => h.saidDirectives decl hdecl hbuiltin detail hdetail

private theorem Orderly.trimmed (h : schema.Orderly) : (schema.trimmed layout).Orderly :=
  h.map TypeDecl.name_trimmed DirectiveDecl.name_trimmed fun type => by
    unfold TypeDecl.trimmed TypeDecl.shown
    split
    · rfl
    · cases type.body <;> simp [TypeBody.shown]

private theorem Valid.trimmed (h : schema.Valid) (horderly : schema.Orderly) : (schema.trimmed layout).Valid where
  distinct :=
    { types := List.forall_mem_map.2 fun type htype => by
        unfold TypeDecl.trimmed
        split
        · exact h.distinct.types type htype
        · exact (h.distinct.types type htype).shown
      directives := List.forall_mem_map.2 fun decl hdecl => by
        rw [DirectiveDecl.args_trimmed]
        exact h.distinct.directives decl hdecl }
  faults := (alike_trimmed horderly).faults h.faults
  resolved := by
    rw [resolved_eq_self_iff, uses_trimmed]
    exact resolved_eq_self_iff.1 h.resolved

private theorem Closed.trimmed (h : schema.Closed) : (schema.trimmed layout).Closed := by
  intro use huse
  rw [uses_trimmed] at huse
  obtain ⟨decl, hdecl, hadmits⟩ := h use huse
  refine ⟨decl.trimmed layout, ?_, (decl.admits_trimmed use.role).trans hadmits⟩
  have hget : (schema.trimmed layout).named? use.type = (schema.named? use.type).map (TypeDecl.trimmed layout) :=
    Members.get?_map TypeDecl.name_trimmed
  rw [hget, hdecl, Option.map_some]

private theorem directive?_trimmed (name : String) :
    (schema.trimmed layout).directive? name = (schema.directive? name).map (DirectiveDecl.trimmed layout) :=
  Members.get?_map DirectiveDecl.name_trimmed

/-- Descriptions do not matter to whether a schema is loaded. -/
theorem LoadedOn.trimmed (h : schema.LoadedOn base) (layout : SchemaLayout) : (schema.trimmed layout).LoadedOn base where
  declared := h.declared.trimmed
  valid := h.valid.trimmed h.orderly
  closed := h.closed.trimmed
  orderly := h.orderly.trimmed
  complete := by
    refine forall_trimmed_details fun detail hdetail => ?_
    have hcomplete := h.complete detail hdetail
    cases detail with
    | use use =>
      intro _ htrimmed
      rw [directive?_trimmed] at htrimmed
      obtain ⟨decl, hdecl, rfl⟩ := Option.map_eq_some_iff.1 htrimmed
      rw [DirectiveDecl.args_trimmed]
      exact hcomplete decl hdecl
    | name _ | title _ | description _ | scalar _ _ | default _ _ | type _ | word _ | places _ => trivial

/-! ### Texts of trimmed schemas -/

private theorem isKeptBy_trimmed (horderly : schema.Orderly) {detail : Detail} (h : detail.IsKeptBy schema) :
    detail.IsKeptBy (schema.trimmed layout) := by
  have hreads {type : TypeRef} {v : Value} (h : schema.ReadsBack type v) : (schema.trimmed layout).ReadsBack type v := by
    obtain ⟨u, hu, hcoerced⟩ := h
    exact ⟨u, hu, ((alike_trimmed horderly).coerceIn type u).symm.trans hcoerced⟩
  cases detail with
  | description text => exact h
  | default type v => exact hreads h
  | use use =>
    intro entry hentry type htype
    have hargument : (schema.trimmed layout).argument? use.name entry.1 = schema.argument? use.name entry.1 := by
      unfold argument?
      rw [directive?_trimmed]
      cases schema.directive? use.name with
      | none => rfl
      | some decl =>
        rw [Option.map_some, Option.bind_some, Option.bind_some, DirectiveDecl.args_trimmed]
    exact hreads (h entry hentry type (hargument ▸ htype))
  | name _ | title _ | scalar _ _ | type _ | word _ | places _ => trivial

/-- What a text keeps of what it shows, it keeps of a trimmed schema in full. -/
private theorem IsKept.trimmed (h : schema.IsKept layout) (hdeclared : schema.DeclaredOn base) (horderly : schema.Orderly) :
    (schema.trimmed layout).IsKept {} := by
  obtain ⟨hdeclaration, hdirectives, htypes⟩ := forall_written_iff.1 h
  refine forall_written_iff.2 ⟨?_, List.forall_mem_map.2 fun decl hdecl hbuiltin => ?_,
    List.forall_mem_map.2 fun type htype hbuiltin => ?_⟩
  · rintro _ hother
    obtain ⟨type, htype, rfl⟩ := Option.map_eq_some_iff.1 hother
    rw [TypeDecl.trimmed_of_declared (hdeclared.declaration type htype)]
    exact TypeDecl.forall_shown fun detail hdetail hshows _ =>
      isKeptBy_trimmed horderly (hdeclaration type htype detail hdetail hshows)
  · rw [DirectiveDecl.builtin_trimmed] at hbuiltin
    rw [DirectiveDecl.trimmed_of_declared hbuiltin]
    exact DirectiveDecl.forall_shown fun detail hdetail hshows _ =>
      isKeptBy_trimmed horderly (hdirectives decl hdecl hbuiltin detail hdetail hshows)
  · rw [TypeDecl.builtin_trimmed] at hbuiltin
    rw [TypeDecl.trimmed_of_declared hbuiltin]
    exact TypeDecl.forall_shown fun detail hdetail hshows _ =>
      isKeptBy_trimmed horderly (htypes type htype hbuiltin detail hdetail hshows)

/-- A text is that of the trimmed schema, in any layout that shows as much. -/
private theorem text_trimmed (h : schema.DeclaredOn base) {full : SchemaLayout} (hfull : full.builtins = false)
    (hbuiltins : layout.builtins = false) (hdescriptions : layout.descriptions = true → full.descriptions = true) :
    (schema.trimmed layout).text full = schema.text layout := by
  refine (@text_map schema (TypeDecl.trimmed layout) (DirectiveDecl.trimmed layout) layout full
    (hfull.trans hbuiltins.symm) (fun t => ⟨t.name_trimmed, t.builtin_trimmed, t.rank_trimmed⟩)
    fun d => ⟨d.name_trimmed, d.builtin_trimmed⟩).trans ?_
  have htype {type : TypeDecl} (hbuiltin : type.builtin = false) :
      SchemaText.type full (type.trimmed layout) = SchemaText.type layout type := by
    rw [TypeDecl.trimmed_of_declared hbuiltin, SchemaText.type_shown hdescriptions]
  have htypes : (schema.textTypes layout).map (fun t => SchemaText.type full (t.trimmed layout)) =
      (schema.textTypes layout).map (SchemaText.type layout) := by
    refine List.map_congr_left fun t ht => htype ?_
    simpa [hbuiltins] using (List.mem_filter.1 (List.mem_mergeSort.1 ht)).2
  have hdirectives : (schema.textDirectives layout).map (fun d => SchemaText.directive full (d.trimmed layout)) =
      (schema.textDirectives layout).map (SchemaText.directive layout) := by
    refine List.map_congr_left fun d hd => ?_
    have hbuiltin : d.builtin = false := by simpa [hbuiltins] using (List.mem_filter.1 (List.mem_mergeSort.1 hd)).2
    rw [DirectiveDecl.trimmed_of_declared hbuiltin, SchemaText.directive_shown hdescriptions]
  have hdeclaration : schema.declaration.toList.map (fun t => SchemaText.type full (t.trimmed layout)) =
      schema.declaration.toList.map (SchemaText.type layout) :=
    List.map_congr_left fun t ht => htype (h.declaration t (Option.mem_toList.1 ht))
  rw [htypes, hdirectives, hdeclaration]
  rfl

/-- A text that keeps all that it shows is read and accepted, and gives a schema of the same text. -/
theorem LoadedOn.reload_trimmed (h : schema.LoadedOn base) (hbase : base.Basic) (hbuiltins : layout.builtins = false)
    (hkept : schema.IsKept layout) :
    ∃ read next, base.read? (bytesOf (schema.text layout)) = .ok read ∧ base.declare? read = .ok next ∧
      next.text layout = schema.text layout := by
  have htext : (schema.trimmed layout).text {} = schema.text layout :=
    text_trimmed h.declared rfl hbuiltins fun _ => rfl
  obtain ⟨read, next, hread, hnext, hresembles⟩ :=
    (h.trimmed layout).reload hbase (hkept.trimmed h.declared h.orderly)
  refine ⟨read, next, htext ▸ hread, hnext, ?_⟩
  rw [← hresembles.text h.orderly.trimmed, text_trimmed h.declared hbuiltins hbuiltins id]

end Schema

end GraphQL
