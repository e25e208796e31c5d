import GraphQL.Proofs.Schema.Reachable

/-!
# Inserting declarations

The types of a reachable schema have distinct names, and so have its directives; its roots are declared apart from the
types (`Schema.Reachable.orderly`). Declarations of new names are all inserted, in their order
(`Schema.assemble_new`).
-/

namespace GraphQL

namespace Schema

/-! ### Orderly schemas -/

/-- No two types and no two directives have the same name, and the roots are not among the types. -/
structure Orderly (schema : Schema) : Prop where
  types : Members.Distinct schema.types
  directives : Members.Distinct schema.directives
  kinds : ∀ type ∈ schema.types, ∀ roots, type.body ≠ .schema roots
  declaration : ∀ type ∈ schema.declaration, ∃ roots, type.body = .schema roots

namespace Orderly

variable {schema : Schema}

private theorem insertType (h : schema.Orderly) (type : TypeDecl) : (schema.insertType type).1.Orderly := by
  unfold Schema.insertType
  split
  · next roots hbody =>
    split
    · exact h
    · refine ⟨h.types, h.directives, h.kinds, fun other hother => ?_⟩
      cases hother
      exact ⟨roots, hbody⟩
  · next hbody =>
    split
    · exact h
    · next hnew =>
      refine ⟨h.types.concat (Bool.not_eq_true _ ▸ hnew), h.directives, fun other hother => ?_, h.declaration⟩
      rcases List.mem_append.1 hother with hother | hother
      · exact h.kinds other hother
      · rw [List.mem_singleton.1 hother]
        exact hbody

theorem insert (h : schema.Orderly) (d : Declaration) : (schema.insert d).1.Orderly := by
  cases d with
  | type type => exact h.insertType type
  | directive decl =>
    show (schema.insertDirective decl).1.Orderly
    unfold Schema.insertDirective
    split
    · exact h
    · next hnew => exact ⟨h.types, h.directives.concat (Bool.not_eq_true _ ▸ hnew), h.kinds, h.declaration⟩
  | extension more => exact h

/-- An extension does not change the kind of what it extends. -/
private theorem kind_extend (type more : TypeDecl) :
    (∃ roots, (type.extend more).1.body = .schema roots) ↔ ∃ roots, type.body = .schema roots := by
  unfold TypeDecl.extend
  split
  · dsimp only
    cases hbody : type.body <;> cases more.body <;> simp [TypeBody.extend]
  · rfl

theorem extend (h : schema.Orderly) (d : Declaration) : (schema.extend d).1.Orderly := by
  cases d with
  | type type => exact h
  | directive decl => exact h
  | extension more =>
    unfold Schema.extend
    dsimp only
    split
    · exact h
    · next type hextended =>
      unfold extended? at hextended
      unfold replace
      dsimp only
      split
      · next roots hmore =>
        rw [hmore] at hextended
        refine ⟨h.types, h.directives, h.kinds, fun other hother => ?_⟩
        cases hother
        exact (kind_extend type more).2 (h.declaration type hextended)
      · next hmore =>
        have hmem : type ∈ schema.types := by
          split at hextended
          · exact absurd ‹_› (hmore _)
          · exact Members.mem_of_get? hextended
        have hnames : HasName.name (type.extend more).1 ∈ Members.names schema.types := by
          rw [show HasName.name (type.extend more).1 = HasName.name type from type.name_extend more]
          exact List.mem_map_of_mem hmem
        refine ⟨?_, h.directives, fun other hother => ?_, h.declaration⟩
        · unfold Members.Distinct
          rw [Members.names_put hnames]
          exact h.types
        · rcases Members.mem_put hother with rfl | hother
          · intro roots hroots
            obtain ⟨roots', hroots'⟩ := (kind_extend type more).1 ⟨roots, hroots⟩
            exact h.kinds type hmem roots' hroots'
          · exact h.kinds other hother

theorem assemble (h : schema.Orderly) (declarations : List Declaration) : (schema.assemble declarations).1.Orderly :=
  assemble_induction (P := Orderly) (fun _ d _ h => h.insert d) (fun _ d _ h => h.extend d) h

/-- Declarations that are changed, but neither in name nor in kind, stay orderly. -/
theorem map (h : schema.Orderly) {f : TypeDecl → TypeDecl} {g : DirectiveDecl → DirectiveDecl}
    (hf : ∀ type, (f type).name = type.name) (hg : ∀ decl, (g decl).name = decl.name)
    (hkind : ∀ type, (∃ roots, (f type).body = .schema roots) ↔ ∃ roots, type.body = .schema roots) :
    ({ types := schema.types.map f, directives := schema.directives.map g,
       declaration := schema.declaration.map f } : Schema).Orderly where
  types := h.types.map hf
  directives := h.directives.map hg
  kinds := List.forall_mem_map.2 fun type htype roots hroots => by
    obtain ⟨roots', hroots'⟩ := (hkind type).1 ⟨roots, hroots⟩
    exact h.kinds type htype roots' hroots'
  declaration := by
    rintro _ hother
    obtain ⟨type, htype, rfl⟩ := Option.map_eq_some_iff.1 hother
    exact (hkind type).2 (h.declaration type htype)

theorem resolved (h : schema.Orderly) : schema.resolved.Orderly :=
  h.map (fun _ => rfl) (fun _ => rfl) fun type => by
    unfold TypeDecl.resolved
    cases type.body <;> simp [TypeBody.resolved]

/-- Other literals do not matter to the order. -/
theorem rewritten (h : schema.Orderly) (r : Rewriting) : (schema.rewritten r).Orderly :=
  h.map (fun _ => rfl) (fun _ => rfl) fun type => by
    unfold Rewriting.type
    cases type.body <;> simp [Rewriting.body]

theorem normal (h : schema.Orderly) : schema.normal.Orderly := h.rewritten (Coercion.normalizing { schema })

end Orderly

theorem Reachable.orderly {schema : Schema} (h : schema.Reachable) : schema.Orderly := by
  induction h with
  | empty => exact ⟨.nil, .nil, fun type htype => absurd htype (by simp), fun type htype => absurd htype (by simp)⟩
  | declare _ _ hnext ih =>
    obtain ⟨-, -, -, rfl⟩ := declare?_eq_ok_iff.1 hnext
    exact (ih.assemble _).resolved.normal

/-! ### New declarations -/

section New

variable {schema middle : Schema} {step : Schema → Declaration → Schema × List SchemaError}

private theorem steps_cons_ok {d : Declaration} {rest : List Declaration} (h : step schema d = (middle, [])) :
    steps step schema (d :: rest) = steps step middle rest := by
  rw [steps, h]
  rfl

private theorem steps_append_ok {first second : List Declaration} (h : steps step schema first = (middle, [])) :
    steps step schema (first ++ second) = steps step middle second := by
  induction first generalizing schema with
  | nil =>
    cases h
    rfl
  | cons d rest ih =>
    obtain ⟨hlast, herrors⟩ := Prod.ext_iff.1 h
    obtain ⟨hhere, hrest⟩ := List.append_eq_nil_iff.1 herrors
    rw [List.cons_append, steps_cons_ok (Prod.ext rfl hhere), ih (Prod.ext hlast hrest)]

private theorem steps_types (types : List TypeDecl) :
    ∀ schema : Schema, Members.Distinct (schema.types ++ types) →
      (∀ type ∈ types, ∀ roots, type.body ≠ .schema roots) →
        steps Schema.insert schema (types.map .type) = ({ schema with types := schema.types ++ types }, []) := by
  induction types with
  | nil =>
    intro schema _ _
    rw [List.append_nil]
    rfl
  | cons type types ih =>
    intro schema hdistinct hkinds
    obtain ⟨hkind, hkinds⟩ := List.forall_mem_cons.1 hkinds
    have hnew : schema.hasType type.name = false := hdistinct.new
    have hinsert : schema.insert (.type type) = ({ schema with types := schema.types ++ [type] }, []) := by
      show schema.insertType type = _
      unfold insertType
      split
      · exact absurd ‹_› (hkind _)
      · rw [hnew]
        rfl
    have hdistinct : Members.Distinct (schema.types ++ [type] ++ types) := by rwa [List.append_assoc]
    rw [List.map_cons, steps_cons_ok hinsert, ih _ hdistinct hkinds, List.append_assoc]
    rfl

private theorem steps_directives (directives : List DirectiveDecl) :
    ∀ schema : Schema, Members.Distinct (schema.directives ++ directives) →
      steps Schema.insert schema (directives.map .directive) =
        ({ schema with directives := schema.directives ++ directives }, []) := by
  induction directives with
  | nil =>
    intro schema _
    rw [List.append_nil]
    rfl
  | cons decl directives ih =>
    intro schema hdistinct
    have hnew : Members.contains decl.name schema.directives = false := hdistinct.new
    have hinsert : schema.insert (.directive decl) =
        ({ schema with directives := schema.directives ++ [decl] }, []) := by
      show schema.insertDirective decl = _
      unfold insertDirective
      rw [hnew]
      rfl
    have hdistinct : Members.Distinct (schema.directives ++ [decl] ++ directives) := by rwa [List.append_assoc]
    rw [List.map_cons, steps_cons_ok hinsert, ih _ hdistinct, List.append_assoc]
    rfl

private theorem steps_declaration (hschema : schema.declaration = none) {declaration : Option TypeDecl}
    (hkind : ∀ type ∈ declaration, ∃ roots, type.body = .schema roots) :
    steps Schema.insert schema (declaration.toList.map .type) = ({ schema with declaration }, []) := by
  cases declaration with
  | none =>
    cases schema
    cases hschema
    rfl
  | some type =>
    obtain ⟨roots, hroots⟩ := hkind type rfl
    have hinsert : schema.insert (.type type) = ({ schema with declaration := some type }, []) := by
      show schema.insertType type = _
      unfold insertType
      rw [hroots]
      dsimp only
      rw [hschema]
      rfl
    rw [Option.toList_some, List.map_singleton, steps_cons_ok hinsert]
    rfl

private theorem steps_extend {declarations : List Declaration} (h : ∀ d ∈ declarations, ∀ more, d ≠ .extension more) :
    steps Schema.extend schema declarations = (schema, []) := by
  induction declarations with
  | nil => rfl
  | cons d rest ih =>
    obtain ⟨hhere, hrest⟩ := List.forall_mem_cons.1 h
    have hextend : schema.extend d = (schema, []) := by
      unfold Schema.extend
      split
      · exact absurd rfl (hhere _)
      · rfl
    rw [steps_cons_ok hextend, ih hrest]

/-- Declarations of names that the schema does not have are put in behind what it has. -/
theorem assemble_new {declaration : Option TypeDecl} {directives : List DirectiveDecl} {types : List TypeDecl}
    (hschema : schema.declaration = none)
    (h : ({ types := schema.types ++ types, directives := schema.directives ++ directives, declaration } : Schema).Orderly) :
    schema.assemble (declaration.toList.map .type ++ directives.map .directive ++ types.map .type) =
      ({ types := schema.types ++ types, directives := schema.directives ++ directives, declaration }, []) := by
  have hinsert : steps Schema.insert schema
      (declaration.toList.map .type ++ directives.map .directive ++ types.map .type) =
        ({ types := schema.types ++ types, directives := schema.directives ++ directives, declaration }, []) := by
    have hdirectives := steps_directives directives { schema with declaration } h.directives
    rw [List.append_assoc, steps_append_ok (steps_declaration hschema h.declaration), steps_append_ok hdirectives]
    exact steps_types types _ h.types fun type htype => h.kinds type (List.mem_append_right _ htype)
  have hextend : ∀ d ∈ declaration.toList.map Declaration.type ++ directives.map .directive ++ types.map .type,
      ∀ more, d ≠ .extension more := by
    intro d hd more hmore
    simp [hmore] at hd
  unfold Schema.assemble
  rw [hinsert]
  dsimp only
  rw [steps_extend hextend]
  rfl

end New

end Schema

end GraphQL
