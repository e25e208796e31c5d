import GraphQL.Proofs.Schema.Checks
import GraphQL.Proofs.Schema.Inserted
import GraphQL.Schema.Writer

/-!
# Declarations in any order

What a batch of declarations makes of a schema does not depend on their order, save for the order of extensions. What
is inserted is known from the declarations as a set (`Schema.steps_insert_iff`); a schema that differs in the order of
its types and directives is extended, resolved, checked and normalised alike; and its text is the same, since a text
has an order of its own (`Schema.Shuffled.text`).
-/

namespace GraphQL

/-! ### What declarations are inserted as -/

namespace Declaration

/-- The type that is declared, if it is not the schema. -/
def type? : Declaration → Option TypeDecl
  | .type decl =>
    match decl.body with
    | .schema _ => none
    | _ => some decl
  | _ => none

/-- The schema that is declared. -/
def schema? : Declaration → Option TypeDecl
  | .type decl =>
    match decl.body with
    | .schema _ => some decl
    | _ => none
  | _ => none

/-- The directive that is declared. -/
def directive? : Declaration → Option DirectiveDecl
  | .directive decl => some decl
  | _ => none

/-- The declaration extends one that is there. -/
def isExtension : Declaration → Bool
  | .extension _ => true
  | _ => false

end Declaration

namespace Schema

variable {schema next other : Schema} {declarations others : List Declaration}

/-- The next schema has more types and directives, of other names, and possibly a declaration of its roots. -/
structure Gains (schema : Schema) (types : List TypeDecl) (directives : List DirectiveDecl)
    (declaration : List TypeDecl) (next : Schema) : Prop where
  types : next.types = schema.types ++ types
  directives : next.directives = schema.directives ++ directives
  declaration : next.declaration.toList = schema.declaration.toList ++ declaration
  distinctTypes : Members.Distinct next.types
  distinctDirectives : Members.Distinct next.directives

section Gains

variable {types : List TypeDecl} {directives : List DirectiveDecl} {declaration : List TypeDecl}

/-- What is gained determines the next schema. -/
private theorem gains_iff_of_toList (root : Option TypeDecl)
    (hroot : root.toList = schema.declaration.toList ++ declaration) :
    schema.Gains types directives declaration next ↔
      (Members.Distinct (schema.types ++ types) ∧ Members.Distinct (schema.directives ++ directives)) ∧
        next = { types := schema.types ++ types, directives := schema.directives ++ directives, declaration := root } := by
  constructor
  · intro h
    obtain ⟨types', directives', root'⟩ := next
    have htypes : types' = schema.types ++ types := h.types
    have hdirectives : directives' = schema.directives ++ directives := h.directives
    have hdeclaration : root'.toList = root.toList := h.declaration.trans hroot.symm
    have hsame : root' = root := by
      rw [← Option.head?_toList (o := root'), hdeclaration, Option.head?_toList]
    refine ⟨⟨htypes ▸ h.distinctTypes, hdirectives ▸ h.distinctDirectives⟩, ?_⟩
    rw [htypes, hdirectives, hsame]
  · rintro ⟨⟨htypes, hdirectives⟩, rfl⟩
    exact ⟨rfl, rfl, hroot, htypes, hdirectives⟩

/-- A schema is declared once at most. -/
private theorem Gains.exists_toList (h : schema.Gains types directives declaration next) {first second : List TypeDecl}
    (hsplit : declaration = first ++ second) :
    ∃ root : Option TypeDecl, root.toList = schema.declaration.toList ++ first := by
  have hlength : next.declaration.toList.length ≤ 1 := by cases next.declaration <;> simp
  rw [h.declaration, hsplit, ← List.append_assoc, List.length_append] at hlength
  match hlist : schema.declaration.toList ++ first with
  | [] => exact ⟨none, rfl⟩
  | [type] => exact ⟨some type, rfl⟩
  | _ :: _ :: _ =>
    rw [hlist, List.length_cons, List.length_cons] at hlength
    omega

/-- What is gained can be gained in two steps. -/
private theorem gains_append_iff {types' : List TypeDecl} {directives' : List DirectiveDecl}
    {declaration' : List TypeDecl} :
    schema.Gains (types ++ types') (directives ++ directives') (declaration ++ declaration') next ↔
      ∃ middle, schema.Gains types directives declaration middle ∧ middle.Gains types' directives' declaration' next := by
  constructor
  · intro h
    obtain ⟨root, hroot⟩ := h.exists_toList rfl
    have htypes : next.types = schema.types ++ types ++ types' := by rw [h.types, List.append_assoc]
    have hdirectives : next.directives = schema.directives ++ directives ++ directives' := by
      rw [h.directives, List.append_assoc]
    have hdistinctTypes : Members.Distinct (schema.types ++ types ++ types') := htypes ▸ h.distinctTypes
    have hdistinctDirectives : Members.Distinct (schema.directives ++ directives ++ directives') :=
      hdirectives ▸ h.distinctDirectives
    refine ⟨{ types := schema.types ++ types, directives := schema.directives ++ directives, declaration := root },
      ⟨rfl, rfl, hroot, hdistinctTypes.of_append, hdistinctDirectives.of_append⟩,
      ⟨htypes, hdirectives, ?_, h.distinctTypes, h.distinctDirectives⟩⟩
    rw [h.declaration, hroot, List.append_assoc]
  · rintro ⟨middle, hfirst, hrest⟩
    exact
      { types := by rw [hrest.types, hfirst.types, List.append_assoc]
        directives := by rw [hrest.directives, hfirst.directives, List.append_assoc]
        declaration := by rw [hrest.declaration, hfirst.declaration, List.append_assoc]
        distinctTypes := hrest.distinctTypes
        distinctDirectives := hrest.distinctDirectives }

private theorem gains_nil_iff (h : schema.Orderly) : schema.Gains [] [] [] next ↔ next = schema := by
  rw [gains_iff_of_toList schema.declaration (List.append_nil _).symm]
  simp [h.types, h.directives]

private theorem distinct_concat_iff {α : Type} [HasName α] {members : List α} {a : α} (h : Members.Distinct members) :
    Members.Distinct (members ++ [a]) ↔ Members.contains (HasName.name a) members = false :=
  ⟨fun hall => hall.new, fun hnew => h.concat hnew⟩

end Gains

/-- A declaration is inserted if its name is new. -/
private theorem insert_iff (h : schema.Orderly) (d : Declaration) :
    schema.insert d = (next, []) ↔ schema.Gains d.type?.toList d.directive?.toList d.schema?.toList next := by
  cases d with
  | directive decl =>
    show schema.insertDirective decl = (next, []) ↔ schema.Gains [] [decl] [] next
    rw [gains_iff_of_toList schema.declaration (List.append_nil _).symm, List.append_nil,
      distinct_concat_iff h.directives]
    unfold insertDirective
    split
    · next htaken => simp [show Members.contains (HasName.name decl) schema.directives = true from htaken]
    · next hnew =>
      have hnew : Members.contains (HasName.name decl) schema.directives = false := Bool.not_eq_true _ ▸ hnew
      simp [hnew, h.types, eq_comm]
  | extension more =>
    show (schema, []) = (next, []) ↔ schema.Gains [] [] [] next
    rw [gains_nil_iff h]
    simp [eq_comm]
  | type type =>
    show schema.insertType type = (next, []) ↔
      schema.Gains (Declaration.type? (.type type)).toList [] (Declaration.schema? (.type type)).toList next
    unfold insertType
    split
    · next roots hkind =>
      have htype : Declaration.type? (.type type) = none := by simp [Declaration.type?, hkind]
      have hschema : Declaration.schema? (.type type) = some type := by simp [Declaration.schema?, hkind]
      rw [htype, hschema, Option.toList_none, Option.toList_some]
      split
      · next hdeclared =>
        obtain ⟨root, hroot⟩ := Option.isSome_iff_exists.1 hdeclared
        refine iff_of_false (by simp) fun hnext => ?_
        obtain ⟨both, hboth⟩ := hnext.exists_toList (List.append_nil _).symm
        rw [hroot] at hboth
        cases both <;> simp at hboth
      · next hnone =>
        have hnone : schema.declaration = none := by simpa using hnone
        rw [gains_iff_of_toList (some type) (by rw [hnone]; rfl)]
        simp [h.types, h.directives, eq_comm]
    · next hkind =>
      have htype : Declaration.type? (.type type) = some type := by
        unfold Declaration.type?
        dsimp only
        split
        · exact absurd ‹_› (hkind _)
        · rfl
      have hschema : Declaration.schema? (.type type) = none := by
        unfold Declaration.schema?
        dsimp only
        split
        · exact absurd ‹_› (hkind _)
        · rfl
      rw [htype, hschema, Option.toList_none, Option.toList_some,
        gains_iff_of_toList schema.declaration (List.append_nil _).symm, List.append_nil,
        distinct_concat_iff h.types]
      split
      · next htaken => simp [show Members.contains (HasName.name type) schema.types = true from htaken]
      · next hnew =>
        have hnew : Members.contains (HasName.name type) schema.types = false := Bool.not_eq_true _ ▸ hnew
        simp [hnew, h.directives, eq_comm]

theorem steps_cons_eq_iff {step : Schema → Declaration → Schema × List SchemaError} {d : Declaration} :
    steps step schema (d :: declarations) = (next, []) ↔
      ∃ middle, step schema d = (middle, []) ∧ steps step middle declarations = (next, []) := by
  rw [steps]
  constructor
  · intro h
    obtain ⟨hlast, herrors⟩ := Prod.ext_iff.1 h
    obtain ⟨hhere, hrest⟩ := List.append_eq_nil_iff.1 herrors
    exact ⟨_, Prod.ext rfl hhere, Prod.ext hlast hrest⟩
  · rintro ⟨middle, hhere, hrest⟩
    rw [hhere]
    dsimp only
    rw [hrest]
    rfl

/-- The two stages of assembling without errors. -/
theorem assemble_eq_ok_iff :
    schema.assemble declarations = (next, []) ↔
      ∃ middle, steps insert schema declarations = (middle, []) ∧ steps extend middle declarations = (next, []) := by
  unfold assemble
  constructor
  · intro h
    obtain ⟨hlast, herrors⟩ := Prod.ext_iff.1 h
    obtain ⟨hinsert, hextend⟩ := List.append_eq_nil_iff.1 herrors
    exact ⟨_, Prod.ext rfl hinsert, Prod.ext hlast hextend⟩
  · rintro ⟨middle, hinsert, hextend⟩
    rw [hinsert]
    dsimp only
    rw [hextend]
    rfl

/-- What is inserted depends on the declarations as a set. -/
theorem steps_insert_iff (h : schema.Orderly) :
    steps insert schema declarations = (next, []) ↔
      schema.Gains (declarations.filterMap Declaration.type?) (declarations.filterMap Declaration.directive?)
        (declarations.filterMap Declaration.schema?) next := by
  have hcons {α : Type} (f : Declaration → Option α) (d : Declaration) (rest : List Declaration) :
      (d :: rest).filterMap f = (f d).toList ++ rest.filterMap f := by
    rw [List.filterMap_cons]
    cases f d <;> rfl
  induction declarations generalizing schema with
  | nil =>
    rw [List.filterMap_nil, List.filterMap_nil, List.filterMap_nil, gains_nil_iff h]
    simp [steps, eq_comm]
  | cons d rest ih =>
    rw [steps_cons_eq_iff, hcons, hcons, hcons, gains_append_iff]
    refine exists_congr fun middle => ?_
    rw [← insert_iff h]
    refine and_congr_right fun hinsert => ih ?_
    have hmiddle := h.insert d
    rwa [hinsert] at hmiddle

/-! ### Schemas in another order -/

/-- The schemas differ in the order of their types and directives at most. -/
structure Shuffled (schema other : Schema) : Prop where
  types : schema.types.Perm other.types
  directives : schema.directives.Perm other.directives
  declaration : schema.declaration = other.declaration

/-- Declarations in another order give the same schema, up to order. -/
theorem Gains.shuffled {types types' : List TypeDecl} {directives directives' : List DirectiveDecl}
    {declaration declaration' : List TypeDecl} (h : schema.Gains types directives declaration next)
    (htypes : types.Perm types') (hdirectives : directives.Perm directives')
    (hdeclaration : declaration.Perm declaration') :
    ∃ other, schema.Gains types' directives' declaration' other ∧ next.Shuffled other := by
  have hperm : next.types.Perm (schema.types ++ types') := h.types ▸ htypes.append_left _
  have hperm' : next.directives.Perm (schema.directives ++ directives') := h.directives ▸ hdirectives.append_left _
  refine ⟨{ types := schema.types ++ types', directives := schema.directives ++ directives',
            declaration := next.declaration },
    ⟨rfl, rfl, ?_, h.distinctTypes.perm hperm, h.distinctDirectives.perm hperm'⟩, ⟨hperm, hperm', rfl⟩⟩
  -- there is no other order of the declarations of a schema, since there is one at most
  have hroots : next.declaration.toList.Perm (schema.declaration.toList ++ declaration') :=
    h.declaration ▸ hdeclaration.append_left _
  cases hnext : next.declaration with
  | none =>
    rw [hnext] at hroots
    exact (List.nil_perm.1 hroots).symm
  | some type =>
    rw [hnext] at hroots
    exact List.singleton_perm.1 hroots

namespace Shuffled

theorem symm (h : schema.Shuffled other) : other.Shuffled schema := ⟨h.types.symm, h.directives.symm, h.declaration.symm⟩

theorem trans {last : Schema} (h : schema.Shuffled other) (h' : other.Shuffled last) : schema.Shuffled last :=
  ⟨h.types.trans h'.types, h.directives.trans h'.directives, h.declaration.trans h'.declaration⟩

theorem hasType (h : schema.Shuffled other) (name : String) : schema.hasType name = other.hasType name := h.types.any_eq

theorem alike (h : schema.Shuffled other) (horderly : schema.Orderly) : schema.Alike other where
  types := h.types.map _
  directives := h.directives.map _
  declaration := congrArg (Option.map TypeDecl.bare) h.declaration
  distinctTypes := horderly.types
  distinctDirectives := horderly.directives

/-! ### Extending -/

private theorem extended? (h : schema.Shuffled other) (horderly : schema.Orderly) (more : TypeDecl) :
    schema.extended? more = other.extended? more := by
  unfold Schema.extended?
  split
  · exact h.declaration
  · exact horderly.types.get?_perm h.types more.name

private theorem replace (h : schema.Shuffled other) (horderly : schema.Orderly) (more type : TypeDecl) :
    (schema.replace more type).Shuffled (other.replace more type) := by
  unfold Schema.replace
  split
  · exact ⟨h.types, h.directives, rfl⟩
  · exact ⟨horderly.types.put_perm h.types, h.directives, h.declaration⟩

private theorem extend (h : schema.Shuffled other) (horderly : schema.Orderly) (d : Declaration) :
    (schema.extend d).2 = (other.extend d).2 ∧ (schema.extend d).1.Shuffled (other.extend d).1 := by
  cases d with
  | type type => exact ⟨rfl, h⟩
  | directive decl => exact ⟨rfl, h⟩
  | extension more =>
    unfold Schema.extend
    dsimp only
    rw [← h.extended? horderly more]
    cases schema.extended? more with
    | none => exact ⟨rfl, h⟩
    | some type => exact ⟨rfl, h.replace horderly more _⟩

theorem steps_extend (h : schema.Shuffled other) (horderly : schema.Orderly) (declarations : List Declaration) :
    (steps Schema.extend schema declarations).2 = (steps Schema.extend other declarations).2 ∧
      (steps Schema.extend schema declarations).1.Shuffled (steps Schema.extend other declarations).1 := by
  induction declarations generalizing schema other with
  | nil => exact ⟨rfl, h⟩
  | cons d rest ih =>
    obtain ⟨herrors, hstep⟩ := h.extend horderly d
    obtain ⟨hmore, hrest⟩ := ih hstep (horderly.extend d)
    refine ⟨?_, hrest⟩
    show (schema.extend d).2 ++ (steps Schema.extend (schema.extend d).1 rest).2 =
      (other.extend d).2 ++ (steps Schema.extend (other.extend d).1 rest).2
    rw [herrors, hmore]

end Shuffled

/-- Only extensions extend. -/
theorem steps_extend_filter (schema : Schema) (declarations : List Declaration) :
    steps extend schema declarations = steps extend schema (declarations.filter Declaration.isExtension) := by
  induction declarations generalizing schema with
  | nil => rfl
  | cons d rest ih =>
    cases d with
    | extension more =>
      rw [List.filter_cons_of_pos rfl, steps, steps]
      dsimp only
      rw [ih]
    | type _ | directive _ =>
      rw [List.filter_cons_of_neg Bool.false_ne_true, steps, ← ih]
      rfl

/-- Assembling declarations in another order, but with the extensions in the same order. -/
theorem assemble_shuffled (h : schema.Orderly) (hperm : declarations.Perm others)
    (hextensions : declarations.filter Declaration.isExtension = others.filter Declaration.isExtension)
    (herrors : (schema.assemble declarations).2 = []) :
    (schema.assemble others).2 = [] ∧ (schema.assemble declarations).1.Shuffled (schema.assemble others).1 := by
  obtain ⟨hinsert, hextend⟩ := List.append_eq_nil_iff.1 herrors
  have hgains := (steps_insert_iff h).1 (Prod.ext rfl hinsert)
  obtain ⟨middle, hmiddle, hshuffled⟩ :=
    hgains.shuffled (hperm.filterMap _) (hperm.filterMap _) (hperm.filterMap _)
  have hother := (steps_insert_iff h).2 hmiddle
  have horderly : (steps insert schema declarations).1.Orderly := steps_induction (fun _ d _ h => h.insert d) h
  obtain ⟨hsame, hresult⟩ := hshuffled.steps_extend horderly (declarations.filter Declaration.isExtension)
  rw [← steps_extend_filter] at hsame hresult
  rw [hextensions, ← steps_extend_filter] at hsame hresult
  unfold assemble
  rw [hother]
  refine ⟨?_, hresult⟩
  show [] ++ _ = []
  rw [List.nil_append, ← hsame]
  exact hextend

/-! ### Resolving, checking and normalising -/

namespace Shuffled

private theorem undefined? (h : schema.Shuffled other) (type : TypeRef) :
    schema.undefined? type = other.undefined? type := by
  induction type with
  | named name | unresolved name _ =>
    unfold Schema.undefined?
    rw [h.hasType]
  | list _ ih => exact ih
  | nonNull _ ih => exact ih

theorem references (h : schema.Shuffled other) : schema.references.Perm other.references := by
  have hdeclaration : schema.declaration.toList = other.declaration.toList := congrArg Option.toList h.declaration
  unfold Schema.references
  rw [hdeclaration]
  exact ((h.types.append_right _).flatMap_right _).append (h.directives.flatMap_right _)

theorem danglingFaults (h : schema.Shuffled other) (hfaults : schema.danglingFaults = []) :
    other.danglingFaults = [] := by
  have hfault (type : TypeRef) : schema.danglingFault? type = other.danglingFault? type := by
    unfold Schema.danglingFault?
    rw [h.undefined?]
  refine List.filterMap_eq_nil_iff.2 fun type htype => ?_
  rw [← hfault]
  exact List.filterMap_eq_nil_iff.1 hfaults type (h.references.mem_iff.2 htype)

private theorem resolved (h : schema.Shuffled other) : schema.resolved.Shuffled other.resolved where
  types := h.types.map _
  directives := h.directives.map _
  declaration := congrArg (Option.map TypeDecl.resolved) h.declaration

private theorem normal (h : schema.Shuffled other) (horderly : schema.Orderly) :
    schema.normal.Shuffled other.normal where
  types := by
    have hsame : schema.coercion.normalType = other.coercion.normalType := (h.alike horderly).normalType
    show (schema.types.map schema.coercion.normalType).Perm (other.types.map other.coercion.normalType)
    rw [hsame]
    exact h.types.map _
  directives := by
    have hsame : schema.coercion.normalDirective = other.coercion.normalDirective := (h.alike horderly).normalDirective
    show (schema.directives.map schema.coercion.normalDirective).Perm _
    rw [hsame]
    exact h.directives.map _
  declaration := by
    have hsame : schema.coercion.normalType = other.coercion.normalType := (h.alike horderly).normalType
    show schema.declaration.map schema.coercion.normalType = other.declaration.map other.coercion.normalType
    rw [hsame, h.declaration]

/-! ### Texts -/

private theorem sorted_eq {α : Type} [HasName α] {le : α → α → Bool} {members others : List α}
    (htrans : ∀ a b c, le a b = true → le b c = true → le a c = true) (htotal : ∀ a b, (le a b || le b a) = true)
    (hname : ∀ a b, le a b = true → le b a = true → HasName.name a = HasName.name b)
    (hdistinct : Members.Distinct members) (hperm : members.Perm others) (kept : α → Bool) :
    (members.filter kept).mergeSort le = (others.filter kept).mergeSort le := by
  have hsorted (list : List α) := List.pairwise_mergeSort htrans htotal list
  have hmem {a : α} (ha : a ∈ (members.filter kept).mergeSort le) : a ∈ members :=
    (List.mem_filter.1 ((List.mergeSort_perm _ le).mem_iff.1 ha)).1
  have hmem' {a : α} (ha : a ∈ (others.filter kept).mergeSort le) : a ∈ members :=
    hperm.mem_iff.2 (List.mem_filter.1 ((List.mergeSort_perm _ le).mem_iff.1 ha)).1
  refine List.Perm.eq_of_pairwise (fun a b ha hb hab hba => ?_) (hsorted _) (hsorted _) ?_
  · -- members of the same name are the same
    have hfound := hdistinct.get?_of_mem (hmem ha)
    rw [hname a b hab hba, hdistinct.get?_of_mem (hmem' hb)] at hfound
    exact (Option.some.inj hfound).symm
  · exact (List.mergeSort_perm _ le).trans ((hperm.filter kept).trans (List.mergeSort_perm _ le).symm)

private theorem typeLe_iff {a b : TypeDecl} :
    SchemaText.typeLe a b = true ↔ a.body.rank < b.body.rank ∨ a.body.rank = b.body.rank ∧ a.name ≤ b.name := by
  simp [SchemaText.typeLe]

/-- A text does not show in which order declarations were made. -/
theorem text (h : schema.Shuffled other) (horderly : schema.Orderly) (layout : SchemaLayout) :
    schema.text layout = other.text layout := by
  have htypes : (schema.types.filter fun t => layout.builtins || !t.builtin).mergeSort SchemaText.typeLe =
      (other.types.filter fun t => layout.builtins || !t.builtin).mergeSort SchemaText.typeLe := by
    refine sorted_eq (fun a b c hab hbc => ?_) (fun a b => ?_) (fun a b hab hba => ?_) horderly.types h.types _
    · rw [typeLe_iff] at hab hbc ⊢
      rcases hab with hab | ⟨hab, hname⟩ <;> rcases hbc with hbc | ⟨hbc, hname'⟩
      · exact .inl (hab.trans hbc)
      · exact .inl (hbc ▸ hab)
      · exact .inl (hab ▸ hbc)
      · exact .inr ⟨hab.trans hbc, String.le_trans hname hname'⟩
    · rw [Bool.or_eq_true, typeLe_iff, typeLe_iff]
      rcases Nat.lt_trichotomy a.body.rank b.body.rank with hrank | hrank | hrank
      · exact .inl (.inl hrank)
      · exact (String.le_total a.name b.name).imp (fun hle => .inr ⟨hrank, hle⟩) fun hle => .inr ⟨hrank.symm, hle⟩
      · exact .inr (.inl hrank)
    · rw [typeLe_iff] at hab hba
      have hle : a.name ≤ b.name := (hab.resolve_left fun hlt => by omega).2
      have hge : b.name ≤ a.name := (hba.resolve_left fun hlt => by omega).2
      exact String.le_antisymm hle hge
  have hdirectives :
      (schema.directives.filter fun d => layout.builtins || !d.builtin).mergeSort SchemaText.directiveLe =
        (other.directives.filter fun d => layout.builtins || !d.builtin).mergeSort SchemaText.directiveLe := by
    have hle {a b : DirectiveDecl} : SchemaText.directiveLe a b = true ↔ a.name ≤ b.name := by
      simp [SchemaText.directiveLe]
    refine sorted_eq (fun a b c hab hbc => ?_) (fun a b => ?_) (fun a b hab hba => ?_) horderly.directives
      h.directives _
    · exact hle.2 (String.le_trans (hle.1 hab) (hle.1 hbc))
    · rw [Bool.or_eq_true, hle, hle]
      exact String.le_total a.name b.name
    · exact String.le_antisymm (hle.1 hab) (hle.1 hba)
  unfold Schema.text
  rw [htypes, hdirectives, h.declaration]

end Shuffled

/-! ### Declaring -/

/-- What is accepted in one order is accepted in every other that keeps the order of extensions. -/
theorem declare?_shuffled (h : schema.Orderly) (hperm : declarations.Perm others)
    (hextensions : declarations.filter Declaration.isExtension = others.filter Declaration.isExtension)
    (hnext : schema.declare? declarations = .ok next) :
    ∃ other, schema.declare? others = .ok other ∧ next.Shuffled other := by
  obtain ⟨herrors, hdangling, hfaults, rfl⟩ := declare?_eq_ok_iff.1 hnext
  obtain ⟨herrors', hassembled⟩ := assemble_shuffled h hperm hextensions herrors
  have horderly : (schema.assemble declarations).1.resolved.Orderly := (h.assemble declarations).resolved
  have hresolved := hassembled.resolved
  refine ⟨(schema.assemble others).1.resolved.normal, ?_, hresolved.normal horderly⟩
  exact declare?_eq_ok_iff.2
    ⟨herrors', hassembled.danglingFaults hdangling, (hresolved.alike horderly).faults hfaults, rfl⟩

theorem Orderly.declare? (h : schema.Orderly) (hnext : schema.declare? declarations = .ok next) :
    next.Orderly := by
  obtain ⟨-, -, -, rfl⟩ := declare?_eq_ok_iff.1 hnext
  exact (h.assemble declarations).resolved.normal

/-- Whether declarations are added to a reachable schema, and how it is written afterwards, does not depend on their
order, as long as the extensions come in the same order. -/
theorem Reachable.add_perm (h : schema.Reachable) (hperm : declarations.Perm others)
    (hextensions : declarations.filter Declaration.isExtension = others.filter Declaration.isExtension) :
    ((schema.add declarations).2 = [] ↔ (schema.add others).2 = []) ∧
      ∀ layout, (schema.add declarations).1.text layout = (schema.add others).1.text layout := by
  have hthere {next : Schema} (hnext : schema.declare? declarations = .ok next) :=
    declare?_shuffled h.orderly hperm hextensions hnext
  have hback {next : Schema} (hnext : schema.declare? others = .ok next) :=
    declare?_shuffled h.orderly hperm.symm hextensions.symm hnext
  constructor
  · rw [add_eq_nil_iff, add_eq_nil_iff]
    constructor
    · rintro ⟨next, hnext⟩
      obtain ⟨other, hother, -⟩ := hthere hnext
      exact ⟨other, hother⟩
    · rintro ⟨next, hnext⟩
      obtain ⟨other, hother, -⟩ := hback hnext
      exact ⟨other, hother⟩
  · intro layout
    cases hnext : schema.declare? declarations with
    | ok next =>
      obtain ⟨other, hother, hshuffled⟩ := hthere hnext
      rw [add_of_ok hnext, add_of_ok hother]
      exact hshuffled.text (h.orderly.declare? hnext) layout
    | error errors =>
      cases hother : schema.declare? others with
      | ok other =>
        obtain ⟨next, hnext', -⟩ := hback hother
        rw [hnext] at hnext'
        cases hnext'
      | error errors' => rw [add_of_error hnext, add_of_error hother]

private def calendar : List Declaration :=
  [.extension { name := "Day", description := some "As in a calendar.", body := .scalar .any },
    .type { name := "Week", body := .object { fields := [{ name := "first", type := .unresolved "Day" .start }] } },
    .type { name := "Day", body := .scalar .any }]

/-- A type may be used and extended before it is declared. -/
theorem add_calendar_perm :
    (({} : Schema).add calendar).2 = [] ∧
      ((({} : Schema).add calendar).2 = [] ↔ (({} : Schema).add calendar.reverse).2 = []) ∧
        ∀ layout, (({} : Schema).add calendar).1.text layout = (({} : Schema).add calendar.reverse).1.text layout :=
  ⟨by cbv, Reachable.empty.add_perm (List.reverse_perm calendar).symm rfl⟩

end Schema

end GraphQL
