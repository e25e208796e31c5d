import GraphQL.Proofs.Schema.Directives
import GraphQL.Proofs.Schema.Evolution
import GraphQL.Proofs.Schema.Inserted
import GraphQL.Proofs.Schema.Legible

/-!
# What is declared beside what is built in

A schema that is declared in a text has what is built into the base that the text was read against, and beside it what
the text says (`Schema.DeclaredOn`). As long as nothing that is built in is extended, all that is not built in could be
said in a text that is read against the base: names are names, literals are legible, and no type is marked non-null
twice. Resolving references and coercing literals do not change that (`Schema.DeclaredOn.normal`).
-/

namespace GraphQL

/-! ### What extended declarations say -/

section Extended

open Schema

private theorem flatMap_subset_append {α : Type} {members first second : List α} (said : α → List Detail)
    (h : members ⊆ first ++ second) : members.flatMap said ⊆ first.flatMap said ++ second.flatMap said := by
  rw [← List.flatMap_append]
  intro detail hdetail
  obtain ⟨a, ha, hdetail⟩ := List.mem_flatMap.1 hdetail
  exact List.mem_flatMap.2 ⟨a, h ha, hdetail⟩

private theorem map_subset_append {α : Type} {members first second : List α} (said : α → Detail)
    (h : members ⊆ first ++ second) : members.map said ⊆ first.map said ++ second.map said := by
  rw [← List.map_append]
  exact List.map_subset said h

private theorem cons_subset_append {detail other : Detail} {said first second : List Detail}
    (h : said ⊆ first ++ second) : detail :: said ⊆ (detail :: first) ++ (other :: second) := by
  intro d hd
  rcases List.mem_cons.1 hd with rfl | hd
  · exact List.mem_append_left _ List.mem_cons_self
  · exact (List.mem_append.1 (h hd)).elim (fun hd => List.mem_append_left _ (List.mem_cons_of_mem _ hd))
      fun hd => List.mem_append_right _ (List.mem_cons_of_mem _ hd)

private theorem ObjectBody.details_extend (body more : ObjectBody) :
    (body.extend more).1.details ⊆ body.details ++ more.details := by
  have hinterfaces := map_subset_append Detail.word (addInterfaces_subset more.interfaces body.interfaces)
  have hfields := flatMap_subset_append FieldDef.details (addMembers_subset more.fields body.fields)
  intro detail hdetail
  simp only [details, List.mem_append] at *
  rcases hdetail with hdetail | hdetail
  · exact (List.mem_append.1 (hinterfaces hdetail)).imp .inl .inl
  · exact (List.mem_append.1 (hfields hdetail)).imp .inr .inr

private theorem addRoots_subset (roots more : SchemaRoots) : (addRoots roots more).1.types ⊆ roots.types ++ more.types := by
  have hroot {a b : Option TypeRef} {added : Bool} {root : TypeRef} (h : root ∈ (a <|> if added then b else none)) :
      root ∈ a ∨ root ∈ b := by
    cases a <;> cases added <;> simp_all
  obtain ⟨query, mutation, subscription, heq⟩ := addRoots_eq roots more
  rw [heq]
  intro root h
  simp only [SchemaRoots.types, List.mem_append, Option.mem_toList] at h ⊢
  rcases h with (h | h) | h
  · exact (hroot h).imp (.inl ∘ .inl) (.inl ∘ .inl)
  · exact (hroot h).imp (.inl ∘ .inr) (.inl ∘ .inr)
  · exact (hroot h).imp .inr .inr

private theorem TypeBody.details_extend (owner other : String) (body more : TypeBody) :
    (body.extend more).1.details owner ⊆ body.details owner ++ more.details other := by
  unfold TypeBody.extend
  split
  · exact cons_subset_append (ObjectBody.details_extend _ _)
  · exact cons_subset_append (ObjectBody.details_extend _ _)
  · exact cons_subset_append (map_subset_append Detail.word (addReferences_subset _ _))
  · exact cons_subset_append (flatMap_subset_append EnumValue.details (addMembers_subset _ _))
  · exact cons_subset_append (flatMap_subset_append InputValue.fieldDetails (addMembers_subset _ _))
  · exact cons_subset_append (map_subset_append Detail.word (addRoots_subset _ _))
  · exact List.subset_append_left _ _

/-- An extended declaration says what it said or what the extension says. -/
theorem TypeDecl.details_extend (type more : TypeDecl) :
    (type.extend more).1.details ⊆ type.details ++ more.details := by
  unfold TypeDecl.extend
  split
  · have hbody := TypeBody.details_extend type.name more.name type.body more.body
    have hdescription : ∀ text ∈ (type.description <|> more.description),
        text ∈ type.description ∨ text ∈ more.description := by
      cases type.description <;> simp
    intro detail hdetail
    simp only [details, List.mem_append, List.map_append] at *
    rcases hdetail with (hdetail | hdetail) | hdetail
    · obtain ⟨text, htext, rfl⟩ := List.mem_map.1 hdetail
      exact (hdescription text (Option.mem_toList.1 htext)).imp
        (fun h => .inl (.inl (List.mem_map_of_mem (Option.mem_toList.2 h))))
        fun h => .inl (.inl (List.mem_map_of_mem (Option.mem_toList.2 h)))
    · exact hdetail.imp (.inl ∘ .inr) (.inl ∘ .inr)
    · exact (List.mem_append.1 (hbody hdetail)).imp .inr .inr
  · exact List.subset_append_left _ _

end Extended

/-! ### What resolved declarations say -/

/-- What becomes of something that a declaration says when references are resolved. -/
def Detail.resolved : Detail → Detail
  | .type ref => .type ref.resolved
  | .word ref => .word ref.resolved
  | .default ref v => .default ref.resolved v
  | detail => detail

section Resolved

private theorem resolved_uses (uses : List DirectiveUse) :
    (uses.map Detail.use).map Detail.resolved = uses.map Detail.use := by
  rw [List.map_map]
  rfl

private theorem resolved_description (description : Option String) :
    (description.toList.map Detail.description).map Detail.resolved = description.toList.map Detail.description := by
  rw [List.map_map]
  rfl

private theorem resolved_words (types : List TypeRef) :
    (types.map TypeRef.resolved).map Detail.word = (types.map Detail.word).map Detail.resolved := by
  rw [List.map_map, List.map_map]
  rfl

private theorem resolved_members {α : Type} {said : α → List Detail} {resolved : α → α}
    (h : ∀ a, said (resolved a) = (said a).map Detail.resolved) (members : List α) :
    (members.map resolved).flatMap said = (members.flatMap said).map Detail.resolved := by
  rw [List.flatMap_map, List.map_flatMap]
  simp only [h]

private theorem InputValue.details_resolved (value : InputValue) :
    value.resolved.details = value.details.map Detail.resolved := by
  have hdefault : value.default.toList.map (Detail.default value.type.resolved) =
      (value.default.toList.map (Detail.default value.type)).map Detail.resolved := by
    rw [List.map_map]
    rfl
  simp only [InputValue.resolved, InputValue.details, hdefault, List.map_cons, List.map_append, resolved_uses]
  rfl

private theorem FieldDef.details_resolved (field : FieldDef) :
    field.resolved.details = field.details.map Detail.resolved := by
  simp only [FieldDef.resolved, FieldDef.details, resolved_members InputValue.details_resolved, List.map_cons,
    List.map_append, resolved_uses, resolved_description]
  rfl

private theorem EnumValue.resolved_details (value : EnumValue) :
    value.details.map Detail.resolved = value.details := by
  simp only [EnumValue.details, List.map_cons, List.map_append, resolved_uses, resolved_description]
  rfl

private theorem InputValue.fieldDetails_resolved (field : InputValue) :
    field.resolved.fieldDetails = field.fieldDetails.map Detail.resolved := by
  simp only [InputValue.fieldDetails, InputValue.details_resolved, List.map_append, resolved_description]
  rfl

private theorem TypeBody.details_resolved (owner : String) (body : TypeBody) :
    body.resolved.details owner = (body.details owner).map Detail.resolved := by
  cases body with
  | scalar _ => rfl
  | object body | interface body =>
    simp only [TypeBody.resolved, ObjectBody.resolved, TypeBody.details, ObjectBody.details,
      resolved_members FieldDef.details_resolved, List.map_cons, List.map_append, resolved_words]
    rfl
  | enum values =>
    simp only [TypeBody.resolved, TypeBody.details, List.map_cons, List.map_flatMap, EnumValue.resolved_details]
    rfl
  | input fields =>
    simp only [TypeBody.resolved, TypeBody.details, resolved_members InputValue.fieldDetails_resolved, List.map_cons]
    rfl
  | union members =>
    simp only [TypeBody.resolved, TypeBody.details, List.map_cons, resolved_words]
    rfl
  | schema roots =>
    simp only [TypeBody.resolved, TypeBody.details, SchemaRoots.types, List.map_cons, ← resolved_words,
      Option.toList_map, List.map_append]
    rfl

theorem TypeDecl.details_resolved (type : TypeDecl) : type.resolved.details = type.details.map Detail.resolved := by
  simp only [TypeDecl.resolved, TypeDecl.details, TypeBody.details_resolved, List.map_append, resolved_uses,
    resolved_description]

theorem DirectiveDecl.details_resolved (decl : DirectiveDecl) :
    decl.resolved.details = decl.details.map Detail.resolved := by
  simp only [DirectiveDecl.resolved, DirectiveDecl.details, resolved_members InputValue.details_resolved,
    List.map_cons, List.map_append, resolved_description]
  rfl

end Resolved

section Said

variable {schema : Schema} {kept : String → Prop} {good : Value → Prop}

private theorem TypeRef.Writable.resolved {type : TypeRef} (h : type.Writable) : type.resolved.Writable := by
  induction h with
  | named h => exact .named h
  | unresolved h => exact .named h
  | list _ ih => exact .list ih
  | @nonNull inner _ hinner ih => exact .nonNull ih (by cases inner <;> first | rfl | cases hinner)

/-- What can be said of unresolved references can be said of resolved ones. -/
theorem Detail.Said.resolved {detail : Detail} (h : detail.Said schema kept good) :
    detail.resolved.Said schema kept good := by
  cases detail with
  | type type => exact TypeRef.Writable.resolved h
  | word type =>
    obtain ⟨name, hname, h⟩ := h
    refine ⟨name, ?_, h⟩
    cases type <;> exact hname
  | name _ | title _ | description _ | scalar _ _ | use _ | default _ _ | places _ => exact h

end Said

/-! ### What is built in -/

def Detail.IsBasic (detail : Detail) : Prop := detail.isBasic = true

/-- All of the schema is built in. -/
structure Schema.Basic (base : Schema) : Prop where
  resolved : base.resolved = base
  declaration : base.declaration = none
  types : ∀ type ∈ base.types, type.builtin = true
  directives : ∀ decl ∈ base.directives, decl.builtin = true
  details : ∀ detail ∈ base.details, detail.IsBasic
  boolean : base.scalar? "Boolean" = some .boolean
  string : base.scalar? "String" = some .string

namespace Detail.IsBasic

variable {schema : Schema} {type : TypeRef} {v : Value} {detail : Detail}

/-- A basic default is a boolean or a string. -/
private theorem cases_default (h : (Detail.default type v).IsBasic) :
    (type = .named "Boolean" ∧ ∃ b, v = .bool b) ∨ (type = .named "String" ∧ ∃ text, v = .string text) := by
  unfold Detail.IsBasic Detail.isBasic at h
  split at h <;> simp_all

theorem legible (h : (Detail.default type v).IsBasic) : v.Legible := by
  rcases h.cases_default with ⟨-, _, rfl⟩ | ⟨-, _, rfl⟩ <;> exact .atom rfl

theorem readBack (h : detail.IsBasic) : Rewriting.readBack.detail detail = detail := by
  cases detail with
  | use use => cases h
  | default type v =>
    rcases h.cases_default with ⟨-, _, rfl⟩ | ⟨-, _, rfl⟩ <;>
      simp [Rewriting.detail, Rewriting.readBack, Value.readBack, Value.reread]
  | name _ | title _ | description _ | scalar _ _ | type _ | word _ | places _ => rfl

private theorem coerceIn_scalar? {name : String} {kind : ScalarKind} (hscalar : schema.scalar? name = some kind)
    (hnull : v ≠ .null) (hvar : ∀ x, v ≠ .var x) : schema.coercion.coerceIn (.named name) v = kind.coerceIn v := by
  unfold Schema.scalar? at hscalar
  split at hscalar
  · next found hbody =>
    cases hscalar
    obtain ⟨decl, hdecl, hkind⟩ := Option.map_eq_some_iff.1 hbody
    exact Coercion.coerceIn_scalar rfl hdecl hkind hnull hvar
  · cases hscalar

/-- Where `Boolean` and `String` are what they are, a basic default is coerced to itself. -/
theorem settled (h : (Detail.default type v).IsBasic) (hboolean : schema.scalar? "Boolean" = some .boolean)
    (hstring : schema.scalar? "String" = some .string) :
    v.mentionsVar = false ∧ schema.coercion.coerceIn type v = .ok v := by
  rcases h.cases_default with ⟨rfl, b, rfl⟩ | ⟨rfl, text, rfl⟩
  · exact ⟨rfl, coerceIn_scalar? hboolean (by simp) (by simp)⟩
  · exact ⟨rfl, coerceIn_scalar? hstring (by simp) (by simp)⟩

theorem normal (h : detail.IsBasic) (hboolean : schema.scalar? "Boolean" = some .boolean)
    (hstring : schema.scalar? "String" = some .string) :
    (Coercion.normalizing schema.coercion).detail detail = detail := by
  cases detail with
  | use use => cases h
  | default type v =>
    obtain ⟨hvar, hv⟩ := h.settled hboolean hstring
    have hsame : schema.coercion.normalDefault type v = v := by
      simp [Coercion.normalDefault, hvar, Coercion.normalLiteral, hv]
    exact congrArg (Detail.default type) hsame
  | name _ | title _ | description _ | scalar _ _ | type _ | word _ | places _ => rfl

end Detail.IsBasic

/-! ### Beside what is built in -/

/-- The schema has what is built into the base, and nothing else that is built in. All else could be said in a text that
is read against the base. -/
structure Schema.DeclaredOn (schema base : Schema) : Prop where
  types : schema.types.filter TypeDecl.builtin = base.types
  directives : schema.directives.filter DirectiveDecl.builtin = base.directives
  declaration : ∀ type ∈ schema.declaration, type.builtin = false
  said : ∀ type ∈ schema.types ++ schema.declaration.toList, type.builtin = false →
    ∀ detail ∈ type.details, detail.IsLegible base
  saidDirectives : ∀ decl ∈ schema.directives, decl.builtin = false → ∀ detail ∈ decl.details, detail.IsLegible base

namespace Schema

variable {schema base : Schema}

theorem Basic.declaredOn (h : base.Basic) : base.DeclaredOn base where
  types := List.filter_eq_self.2 h.types
  directives := List.filter_eq_self.2 h.directives
  declaration := by simp [h.declaration]
  said := by
    intro type htype hbuiltin
    rw [h.declaration, Option.toList_none, List.append_nil] at htype
    simp [h.types type htype] at hbuiltin
  saidDirectives := by
    intro decl hdecl hbuiltin
    simp [h.directives decl hdecl] at hbuiltin

namespace DeclaredOn

section Assembling

private theorem insertType (h : schema.DeclaredOn base) {type : TypeDecl} (hbuiltin : type.builtin = false)
    (hsaid : ∀ detail ∈ type.details, detail.IsLegible base) : (schema.insertType type).1.DeclaredOn base := by
  unfold Schema.insertType
  split
  · split
    · exact h
    · refine ⟨h.types, h.directives, fun other hother => Option.some.inj hother ▸ hbuiltin, ?_, h.saidDirectives⟩
      intro other hother hdeclared
      rcases List.mem_append.1 hother with hother | hother
      · exact h.said other (List.mem_append_left _ hother) hdeclared
      · exact List.mem_singleton.1 hother ▸ hsaid
  · split
    · exact h
    · refine ⟨?_, h.directives, h.declaration, ?_, h.saidDirectives⟩
      · rw [List.filter_append, h.types]
        simp [hbuiltin]
      · intro other hother hdeclared
        rcases List.mem_append.1 hother with hother | hother
        · rcases List.mem_append.1 hother with hother | hother
          · exact h.said other (List.mem_append_left _ hother) hdeclared
          · exact List.mem_singleton.1 hother ▸ hsaid
        · exact h.said other (List.mem_append_right _ hother) hdeclared

private theorem insert (h : schema.DeclaredOn base) {d : Declaration} (hbuiltin : d.IsDeclared)
    (hsaid : ∀ detail ∈ d.details, detail.IsLegible base) : (schema.insert d).1.DeclaredOn base := by
  cases d with
  | type type => exact h.insertType hbuiltin hsaid
  | extension more => exact h
  | directive decl =>
    have hbuiltin : decl.builtin = false := hbuiltin
    show (schema.insertDirective decl).1.DeclaredOn base
    unfold Schema.insertDirective
    split
    · exact h
    · refine ⟨h.types, ?_, h.declaration, h.said, fun other hother hdeclared => ?_⟩
      · rw [List.filter_append, h.directives]
        simp [hbuiltin]
      · rcases List.mem_append.1 hother with hother | hother
        · exact h.saidDirectives other hother hdeclared
        · exact List.mem_singleton.1 hother ▸ hsaid

/-- What is extended is not built in, if nothing of the base is. -/
private theorem builtin_extended? (h : schema.DeclaredOn base) {more type : TypeDecl}
    (hnew : base.extended? more = none) (htype : schema.extended? more = some type) : type.builtin = false := by
  unfold Schema.extended? at hnew htype
  split at htype
  · exact h.declaration type htype
  · next hmore =>
    split at hnew
    · exact absurd ‹_› (hmore _)
    · refine Bool.not_eq_true _ ▸ fun hbuiltin => ?_
      have hmem : type ∈ base.types := h.types ▸ List.mem_filter.2 ⟨Members.mem_of_get? htype, hbuiltin⟩
      have hname : type.name = more.name := Members.name_of_get? htype
      have hsome := Members.get?_isSome.trans (Members.contains_iff.2 (List.mem_map_of_mem (f := HasName.name) hmem))
      rw [show HasName.name type = more.name from hname, show Members.get? more.name base.types = none from hnew] at hsome
      cases hsome

private theorem filter_put {kept : TypeDecl → Bool} {name : String} {type type' : TypeDecl} {types : List TypeDecl}
    (htype : Members.get? name types = some type) (hname : type'.name = name) (h : kept type = false)
    (h' : kept type' = false) : (Members.put type' types).filter kept = types.filter kept := by
  induction types with
  | nil => cases htype
  | cons other types ih =>
    unfold Members.put
    have hother : HasName.name other = other.name := rfl
    have hnamed : HasName.name type' = name := hname
    by_cases heq : other.name = name
    · have hfound : other = type := by simpa [Members.get?, hother, heq] using htype
      rw [hother, hnamed, heq, if_pos rfl, List.filter_cons_of_neg (by simp [h']),
        List.filter_cons_of_neg (by simp [hfound, h])]
    · have hrest : Members.get? name types = some type := by simpa [Members.get?, hother, heq] using htype
      simp [hother, hnamed, heq, List.filter_cons, ih hrest]

private theorem extend (h : schema.DeclaredOn base) {d : Declaration}
    (hnew : ∀ more, d = .extension more → base.extended? more = none)
    (hsaid : ∀ detail ∈ d.details, detail.IsLegible base) : (schema.extend d).1.DeclaredOn base := by
  cases d with
  | type type => exact h
  | directive decl => exact h
  | extension more =>
    unfold Schema.extend
    dsimp only
    split
    · exact h
    · next type htype =>
      have hbuiltin := h.builtin_extended? (hnew more rfl) htype
      have hbuiltin' : (type.extend more).1.builtin = false := (type.builtin_extend more).trans hbuiltin
      refine ⟨?_, ?_, ?_, ?_, ?_⟩
      · unfold Schema.extended? at htype
        unfold Schema.replace
        split
        · exact h.types
        · next hmore =>
          split at htype
          · exact absurd ‹_› (hmore _)
          · rw [← h.types]
            exact filter_put htype ((type.name_extend more).trans (Members.name_of_get? htype)) hbuiltin hbuiltin'
      · rw [directives_replace]
        exact h.directives
      · unfold Schema.replace
        split
        · exact fun other hother => Option.some.inj hother ▸ hbuiltin'
        · exact h.declaration
      · intro other hother hdeclared detail hdetail
        rcases mem_replace hother with rfl | hother
        · rcases List.mem_append.1 (type.details_extend more hdetail) with hdetail | hdetail
          · exact h.said type (mem_of_extended? htype) hbuiltin detail hdetail
          · exact hsaid detail hdetail
        · exact h.said other hother hdeclared detail hdetail
      · rw [directives_replace]
        exact h.saidDirectives

/-- What is put in beside the base could be said in a text, if it comes from one and extends nothing of the base. -/
theorem assemble (h : schema.DeclaredOn base) {declarations : List Declaration}
    (hsaid : ∀ d ∈ declarations, d.IsDeclared ∧ ∀ detail ∈ d.details, detail.IsLegible base)
    (hnew : ∀ more, .extension more ∈ declarations → base.extended? more = none) :
    (schema.assemble declarations).1.DeclaredOn base :=
  assemble_induction (P := (DeclaredOn · base)) (fun _ d hd h => h.insert (hsaid d hd).1 (hsaid d hd).2)
    (fun _ d hd h => h.extend (fun more hmore => hnew more (hmore ▸ hd)) (hsaid d hd).2) h

end Assembling

/-! ### What all declarations say -/

/-- What is built in is basic, and of the rest holds what holds of all that is not built in. -/
theorem basic_or (h : schema.DeclaredOn base) (hbase : base.Basic) {P : Detail → Prop}
    (htypes : ∀ type ∈ schema.types ++ schema.declaration.toList, type.builtin = false →
      ∀ detail ∈ type.details, P detail)
    (hdirectives : ∀ decl ∈ schema.directives, decl.builtin = false → ∀ detail ∈ decl.details, P detail) :
    ∀ detail ∈ schema.details, detail.IsBasic ∨ P detail := by
  obtain ⟨hbasicTypes, hbasicDirectives⟩ := Schema.forall_details_iff.1 hbase.details
  refine Schema.forall_details_iff.2 ⟨fun type htype detail hdetail => ?_, fun decl hdecl detail hdetail => ?_⟩
  · cases hbuiltin : type.builtin with
    | false => exact .inr (htypes type htype hbuiltin detail hdetail)
    | true =>
      rcases List.mem_append.1 htype with htype | htype
      · have hmem : type ∈ base.types := h.types ▸ List.mem_filter.2 ⟨htype, hbuiltin⟩
        exact .inl (hbasicTypes type (List.mem_append_left _ hmem) detail hdetail)
      · rw [h.declaration type (Option.mem_toList.1 htype)] at hbuiltin
        cases hbuiltin
  · cases hbuiltin : decl.builtin with
    | false => exact .inr (hdirectives decl hdecl hbuiltin detail hdetail)
    | true =>
      have hmem : decl ∈ base.directives := h.directives ▸ List.mem_filter.2 ⟨hdecl, hbuiltin⟩
      exact .inl (hbasicDirectives decl hmem detail hdetail)

theorem basic_or_legible (h : schema.DeclaredOn base) (hbase : base.Basic) :
    ∀ detail ∈ schema.details, detail.IsBasic ∨ detail.IsLegible base := h.basic_or hbase h.said h.saidDirectives

theorem scalar? (h : schema.DeclaredOn base) (horderly : schema.Orderly) {name : String} {kind : ScalarKind}
    (hkind : base.scalar? name = some kind) : schema.scalar? name = some kind := by
  unfold Schema.scalar? at hkind ⊢
  split at hkind
  · next found hbody =>
    obtain ⟨decl, hdecl, hdeclBody⟩ := Option.map_eq_some_iff.1 hbody
    have hmem : decl ∈ schema.types := List.mem_of_mem_filter (h.types ▸ Members.mem_of_get? hdecl)
    have htype : schema.type? name = some decl := Members.name_of_get? hdecl ▸ horderly.types.get?_of_mem hmem
    rw [htype, Option.map_some, hdeclBody]
    exact hkind
  · cases hkind

/-- Every default can be written. -/
theorem legible_default (h : schema.DeclaredOn base) (hbase : base.Basic) {type : TypeRef} {v : Value}
    (hdefault : .default type v ∈ schema.details) : v.Legible := by
  rcases h.basic_or_legible hbase _ hdefault with hbasic | hlegible
  · exact hbasic.legible
  · exact hlegible

/-! ### Resolving and coercing -/

/-- Resolving references does not change what is built in. -/
theorem resolved (h : schema.DeclaredOn base) (hbase : base.Basic) : schema.resolved.DeclaredOn base where
  types := by
    show (schema.types.map TypeDecl.resolved).filter TypeDecl.builtin = base.types
    rw [List.filter_map, show TypeDecl.builtin ∘ TypeDecl.resolved = TypeDecl.builtin from rfl, h.types]
    exact congrArg Schema.types hbase.resolved
  directives := by
    show (schema.directives.map DirectiveDecl.resolved).filter DirectiveDecl.builtin = base.directives
    rw [List.filter_map, show DirectiveDecl.builtin ∘ DirectiveDecl.resolved = DirectiveDecl.builtin from rfl,
      h.directives]
    exact congrArg Schema.directives hbase.resolved
  declaration := by
    rintro _ hother
    obtain ⟨type, htype, rfl⟩ := Option.map_eq_some_iff.1 hother
    exact h.declaration type htype
  said := by
    rw [show schema.resolved.types ++ schema.resolved.declaration.toList =
      (schema.types ++ schema.declaration.toList).map TypeDecl.resolved by
        simp only [Schema.resolved, List.map_append, Option.toList_map]]
    refine List.forall_mem_map.2 fun type htype hbuiltin => ?_
    rw [TypeDecl.details_resolved]
    exact List.forall_mem_map.2 fun detail hdetail => (h.said type htype hbuiltin detail hdetail).resolved
  saidDirectives := by
    refine List.forall_mem_map.2 fun decl hdecl hbuiltin => ?_
    rw [DirectiveDecl.details_resolved]
    exact List.forall_mem_map.2 fun detail hdetail => (h.saidDirectives decl hdecl hbuiltin detail hdetail).resolved

/-- Other literals can be said too, if they are legible; those that are built in have to stay. -/
private theorem rewritten (h : schema.DeclaredOn base) (hbase : base.Basic) {r : Rewriting}
    (hbasic : ∀ detail : Detail, detail.IsBasic → r.detail detail = detail)
    (hsaid : ∀ detail ∈ schema.details, detail.IsLegible base → (r.detail detail).IsLegible base) :
    (schema.rewritten r).DeclaredOn base where
  types := by
    show (schema.types.map r.type).filter TypeDecl.builtin = base.types
    rw [List.filter_map, show TypeDecl.builtin ∘ r.type = TypeDecl.builtin from rfl, h.types]
    refine map_eq_self_iff.2 fun type htype => Rewriting.type_eq_self fun detail hdetail => hbasic detail ?_
    exact hbase.details detail (details_subset_of_type (List.mem_append_left _ htype) hdetail)
  directives := by
    show (schema.directives.map r.directive).filter DirectiveDecl.builtin = base.directives
    rw [List.filter_map, show DirectiveDecl.builtin ∘ r.directive = DirectiveDecl.builtin from rfl, h.directives]
    refine map_eq_self_iff.2 fun decl hdecl => Rewriting.directive_eq_self fun detail hdetail => hbasic detail ?_
    exact hbase.details detail (details_subset_of_directive hdecl hdetail)
  declaration := by
    rintro _ hother
    obtain ⟨type, htype, rfl⟩ := Option.map_eq_some_iff.1 hother
    exact h.declaration type htype
  said := by
    rw [show (schema.rewritten r).types ++ (schema.rewritten r).declaration.toList =
      (schema.types ++ schema.declaration.toList).map r.type by
        simp only [Schema.rewritten, List.map_append, Option.toList_map]]
    refine List.forall_mem_map.2 fun type htype hbuiltin => ?_
    rw [r.details_type]
    exact List.forall_mem_map.2 fun detail hdetail =>
      hsaid detail (details_subset_of_type htype hdetail) (h.said type htype hbuiltin detail hdetail)
  saidDirectives := by
    refine List.forall_mem_map.2 fun decl hdecl hbuiltin => ?_
    rw [r.details_directive]
    exact List.forall_mem_map.2 fun detail hdetail =>
      hsaid detail (details_subset_of_directive hdecl hdetail) (h.saidDirectives decl hdecl hbuiltin detail hdetail)

/-- What a literal is coerced to can be written. -/
private theorem legible_normalDefault (h : schema.DeclaredOn base) (hbase : base.Basic) (hvalid : schema.Valid)
    {type : TypeRef} {v : Value} (hv : v.Legible) : (schema.coercion.normalDefault type v).Legible := by
  have hdefaults (place : TypeRef × Value) (hplace : Coercion.IsDefault schema place) : place.2.Legible :=
    h.legible_default hbase hplace.mem_details
  unfold Coercion.normalDefault Coercion.normalLiteral
  split
  · exact hv
  · next hconstant =>
    split
    · next w hw => exact hvalid.legible_coerceIn hv (Bool.not_eq_true _ ▸ hconstant) hdefaults hw
    · exact hv

/-- A directive can be used with the arguments that are filled in. -/
private theorem legible_missingDefaults (h : schema.DeclaredOn base) (hbase : base.Basic) (hvalid : schema.Valid)
    {decl : DirectiveDecl} (hdecl : decl ∈ schema.directives) {given : List (String × Value)} :
    ∀ entry ∈ Coercion.missingDefaults decl.args given, IsName entry.1 ∧ entry.2.Legible := by
  intro entry hentry
  obtain ⟨arg, harg, hmissing⟩ := List.mem_filterMap.1 hentry
  split at hmissing
  · cases hmissing
  · obtain ⟨v, hv, rfl⟩ := Option.map_eq_some_iff.1 hmissing
    have hfaults := (faults_eq_nil_iff.1 hvalid.faults).2.1 decl hdecl
    have hname := (inputFaults_eq_nil_iff.1 (List.flatMap_eq_nil_iff.1 (List.append_eq_nil_iff.1 hfaults).2 arg harg)).1
    exact ⟨isName_of_nameFaults hname, h.legible_default hbase (argumentDefault_mem_details hdecl harg hv)⟩

private theorem legible_normalUse (h : schema.DeclaredOn base) (hbase : base.Basic) (hvalid : schema.Valid)
    {use : DirectiveUse} (huse : (Detail.use use).IsLegible base) :
    (Detail.use (schema.coercion.normalUse false use)).IsLegible base := by
  obtain ⟨hname, hdistinct, hargs⟩ := huse
  cases hdecl : schema.directive? use.name with
  | none =>
    have hsame : schema.coercion.normalUse false use = use := by
      unfold Coercion.normalUse
      rw [show schema.coercion.schema.directive? use.name = none from hdecl]
    rw [hsame]
    exact ⟨hname, hdistinct, hargs⟩
  | some decl =>
    have hmem := Members.mem_of_get? hdecl
    refine ⟨by rwa [Coercion.name_normalUse], ?_, ?_⟩
    · exact distinct_normalUse hdistinct hdecl (hvalid.distinct.directives decl hmem)
    · rw [Coercion.args_normalUse (c := schema.coercion) hdecl, List.forall_mem_append]
      refine ⟨List.forall_mem_map.2 fun entry hentry => ?_, h.legible_missingDefaults hbase hvalid hmem⟩
      rw [Coercion.normalArgument_eq]
      refine ⟨(hargs entry hentry).1, ?_⟩
      unfold Coercion.normalGiven
      split
      · exact h.legible_normalDefault hbase hvalid (hargs entry hentry).2
      · exact (hargs entry hentry).2

/-- Coerced literals can be said too. -/
theorem normal (h : schema.DeclaredOn base) (hbase : base.Basic) (hvalid : schema.Valid) (horderly : schema.Orderly) :
    schema.normal.DeclaredOn base := by
  refine h.rewritten hbase (r := Coercion.normalizing schema.coercion)
    (fun detail hbasic => hbasic.normal (h.scalar? horderly hbase.boolean) (h.scalar? horderly hbase.string))
    fun detail _ hlegible => ?_
  cases detail with
  | default type v => exact h.legible_normalDefault hbase hvalid hlegible
  | use use => exact h.legible_normalUse hbase hvalid hlegible
  | name _ | title _ | description _ | scalar _ _ | type _ | word _ | places _ => exact hlegible

/-- What a text declares beside the base could be said in a text again. -/
theorem declare? (h : schema.DeclaredOn base) (hbase : base.Basic) (hdistinct : schema.Distinct)
    (horderly : schema.Orderly) {source : List UInt8} {declarations : List Declaration}
    {next : Schema} (hread : base.read? source = .ok declarations) (hnext : schema.declare? declarations = .ok next)
    (hnew : ∀ more, .extension more ∈ declarations → base.extended? more = none) : next.DeclaredOn base := by
  have hvalid := hdistinct.valid_resolved (read?_distinct hread) hnext
  obtain ⟨-, -, -, rfl⟩ := declare?_eq_ok_iff.1 hnext
  exact ((h.assemble (read?_said hread) hnew).resolved hbase).normal hbase hvalid (horderly.assemble _).resolved

end DeclaredOn

end Schema

end GraphQL
