import GraphQL.Proofs.Schema.Evolution
import GraphQL.Proofs.Schema.Interfaces
import GraphQL.Proofs.Schema.Order
import GraphQL.Proofs.Schema.Placeholders

/-!
# Uses of undefined types

A batch that is put in without errors adds its uses of types to those of the schema, save for interfaces of extensions
that the extended type lists already (`Schema.uses_assemble`). What resolving reports is therefore known from the batch:
nothing if all names are those of types, and otherwise one error for each use of a name that is not, with the place of
that use (`Schema.Reachable.resolves_or_reports`).
-/

namespace GraphQL

/-! ### What a batch adds -/

/-- The interfaces whose names are not listed, the first of each name. -/
def newInterfaces (listed : List String) : List TypeRef → List TypeRef
  | [] => []
  | type :: rest =>
    if listed.contains type.baseName then newInterfaces listed rest
    else type :: newInterfaces (type.baseName :: listed) rest

/-- The uses of types in what extends a type with the listed interfaces. -/
def TypeBody.usesBeyond (listed : List String) : TypeBody → List TypeUse
  | .object body | .interface body =>
    (newInterfaces listed body.interfaces).map (⟨.interface, ·⟩) ++ body.fields.flatMap FieldDef.uses
  | body => body.uses

/-- The names of the interfaces that an object or interface lists. -/
def TypeBody.interfaceNames : TypeBody → List String
  | .object body | .interface body => body.interfaces.map TypeRef.baseName
  | _ => []

/-- The extension that is declared. -/
def Declaration.extension? : Declaration → Option TypeDecl
  | .extension more => some more
  | _ => none

/-- The uses of types in extensions that come one after the other. `listed` holds the interfaces of each type so far. -/
def extensionUses (listed : String → List String) : List TypeDecl → List TypeUse
  | [] => []
  | more :: rest =>
    more.body.usesBeyond (listed more.name) ++
      extensionUses (Function.update listed more.name (listed more.name ++ more.body.interfaceNames)) rest

namespace Schema

/-- The interfaces that a type of the schema or the batch lists before it is extended. -/
def listedBy (schema : Schema) (declarations : List Declaration) (name : String) : List String :=
  match Members.get? name (schema.types ++ declarations.filterMap Declaration.type?) with
  | some type => type.body.interfaceNames
  | none => []

/-- The uses of types in the batch, without interfaces that an extended type lists already. -/
def usesAdded (schema : Schema) (declarations : List Declaration) : List TypeUse :=
  (declarations.filter (!·.isExtension)).flatMap Declaration.uses ++
    extensionUses (schema.listedBy declarations) (declarations.filterMap Declaration.extension?)

/-- The name is that of a type of the schema or the batch. -/
def knows (schema : Schema) (declarations : List Declaration) (name : String) : Bool :=
  schema.hasType name || Members.contains name (declarations.filterMap Declaration.type?)

end Schema

/-- The error is about the name in the reference, which stands where the error says. -/
structure TypeUse.ReportedBy (text : List UInt8) (use : TypeUse) (error : SchemaError) : Prop where
  cause : error.cause = .undefinedType use.type.baseName
  validation : error.cause.kind = .validation
  pos : use.type.unresolvedPos? = some error.pos
  stands : StandsAt text use.type.baseName error.pos

theorem TypeRef.unresolvedPos?_resolved (type : TypeRef) : type.resolved.unresolvedPos? = none := by
  induction type with
  | named _ | unresolved _ _ => rfl
  | list _ ih | nonNull _ ih => exact ih

/-! ### Adding members -/

theorem newInterfaces_congr {listed other : List String} (h : ∀ name, name ∈ listed ↔ name ∈ other)
    (interfaces : List TypeRef) : newInterfaces listed interfaces = newInterfaces other interfaces := by
  induction interfaces generalizing listed other with
  | nil => rfl
  | cons type rest ih =>
    have hcontains : listed.contains type.baseName = other.contains type.baseName := by
      rw [Bool.eq_iff_iff, List.contains_iff_mem, List.contains_iff_mem, h]
    have hcons (name : String) : name ∈ type.baseName :: listed ↔ name ∈ type.baseName :: other := by
      rw [List.mem_cons, List.mem_cons, h]
    rw [newInterfaces, newInterfaces, hcontains, ih h, ih hcons]

theorem addInterfaces_eq_append (interfaces more : List TypeRef) :
    addInterfaces interfaces more = interfaces ++ newInterfaces (interfaces.map TypeRef.baseName) more := by
  induction more generalizing interfaces with
  | nil => rw [addInterfaces, newInterfaces, List.append_nil]
  | cons type rest ih =>
    rw [addInterfaces, newInterfaces]
    split
    · exact ih interfaces
    · rw [ih, List.append_assoc, List.singleton_append]
      congr 2
      refine newInterfaces_congr (fun name => ?_) rest
      rw [List.map_append, List.mem_append, List.mem_cons, or_comm]
      simp

theorem newInterfaces_sublist (listed : List String) (interfaces : List TypeRef) :
    (newInterfaces listed interfaces).Sublist interfaces := by
  induction interfaces generalizing listed with
  | nil => exact .slnil
  | cons type rest ih =>
    rw [newInterfaces]
    split
    · exact (ih _).cons type
    · exact (ih _).cons_cons type

/-- An interface is new unless its name is listed, be it by an earlier one. -/
theorem mem_names_newInterfaces {name : String} (listed : List String) (interfaces : List TypeRef) :
    name ∈ listed ∨ name ∈ (newInterfaces listed interfaces).map TypeRef.baseName ↔
      name ∈ listed ∨ name ∈ interfaces.map TypeRef.baseName := by
  induction interfaces generalizing listed with
  | nil => rfl
  | cons type rest ih =>
    rw [newInterfaces]
    split
    · next hlisted =>
      rw [ih, List.map_cons, List.mem_cons]
      have hlisted : type.baseName ∈ listed := List.contains_iff_mem.1 hlisted
      constructor
      · exact fun h => h.imp_right .inr
      · rintro (h | rfl | h)
        · exact .inl h
        · exact .inl hlisted
        · exact .inr h
    · have hrest := ih (type.baseName :: listed)
      rw [List.mem_cons, or_assoc, or_assoc] at hrest
      rw [List.map_cons, List.map_cons, List.mem_cons, List.mem_cons]
      rw [or_left_comm, hrest, or_left_comm]

theorem addMembers_eq_append {α : Type} [HasName α] {members more : List α} (h : (addMembers members more).2 = none) :
    (addMembers members more).1 = members ++ more := by
  induction more generalizing members with
  | nil => rw [addMembers, List.append_nil]
  | cons a rest ih =>
    rw [addMembers] at h ⊢
    split at h
    · cases h
    · next hnew =>
      rw [if_neg hnew, ih h, List.append_assoc, List.singleton_append]

theorem addReferences_eq_append {members more : List TypeRef} (h : (addReferences members more).2 = none) :
    (addReferences members more).1 = members ++ more := by
  induction more generalizing members with
  | nil => rw [addReferences, List.append_nil]
  | cons a rest ih =>
    rw [addReferences] at h ⊢
    split at h
    · cases h
    · next hnew =>
      rw [if_neg hnew, ih h, List.append_assoc, List.singleton_append]

private theorem toList_orElse {root more : Option TypeRef} (h : (root.isSome && more.isSome) = false) :
    (root <|> more).toList = root.toList ++ more.toList := by
  cases root <;> cases more <;> first | rfl | cases h

private theorem uses_addRoots {roots more : SchemaRoots} (h : (addRoots roots more).2 = none) :
    (TypeBody.schema (addRoots roots more).1).uses.Perm ((TypeBody.schema roots).uses ++ (TypeBody.schema more).uses) := by
  unfold addRoots at h ⊢
  dsimp only at h ⊢
  split at h
  · cases h
  · next hquery =>
    split at h
    · cases h
    · next hmutation =>
      split at h
      · cases h
      · next hsubscription =>
        rw [if_neg hquery, if_neg hmutation, if_neg hsubscription]
        unfold TypeBody.uses
        rw [← List.map_append]
        refine .map _ ?_
        dsimp only
        rw [toList_orElse (Bool.not_eq_true _ ▸ hquery), toList_orElse (Bool.not_eq_true _ ▸ hmutation),
          toList_orElse (Bool.not_eq_true _ ▸ hsubscription), ← Multiset.coe_eq_coe]
        simp only [← Multiset.coe_add]
        abel

/-! ### Extending -/

private theorem usesBeyond_congr {listed other : List String} (h : ∀ name, name ∈ listed ↔ name ∈ other)
    (body : TypeBody) : body.usesBeyond listed = body.usesBeyond other := by
  unfold TypeBody.usesBeyond
  split
  · rw [newInterfaces_congr h]
  · rw [newInterfaces_congr h]
  · rfl

private theorem uses_objectExtend {body more : ObjectBody} (h : (body.extend more).2 = none) :
    (TypeBody.object (body.extend more).1).uses.Perm
      ((TypeBody.object body).uses ++ (TypeBody.object more).usesBeyond (body.interfaces.map TypeRef.baseName)) := by
  show ((addInterfaces body.interfaces more.interfaces).map _ ++ (addMembers body.fields more.fields).1.flatMap _).Perm _
  rw [addInterfaces_eq_append, addMembers_eq_append h, List.map_append, List.flatMap_append]
  unfold TypeBody.uses TypeBody.usesBeyond
  rw [← Multiset.coe_eq_coe]
  simp only [← Multiset.coe_add]
  abel

/-- What is extended without errors has all that the extension says, but for interfaces that were listed already. -/
private theorem uses_bodyExtend {body more : TypeBody} (hkeyword : body.keyword = more.keyword)
    (h : (body.extend more).2 = none) :
    (body.extend more).1.uses.Perm (body.uses ++ more.usesBeyond body.interfaceNames) := by
  unfold TypeBody.extend at h ⊢
  split at h
  · exact uses_objectExtend (Option.map_eq_none_iff.1 h)
  · exact uses_objectExtend (Option.map_eq_none_iff.1 h)
  · show (List.map _ (addReferences _ _).1).Perm _
    rw [addReferences_eq_append (Option.map_eq_none_iff.1 h), List.map_append]
    exact .refl _
  · exact .refl _
  · show (List.map _ (addMembers _ _).1).Perm _
    rw [addMembers_eq_append (Option.map_eq_none_iff.1 h), List.map_append]
    exact .refl _
  · exact uses_addRoots (Option.map_eq_none_iff.1 h)
  · cases body <;> cases more <;> simp_all [TypeBody.keyword, TypeBody.uses, TypeBody.usesBeyond]

private theorem mem_interfaceNames_objectExtend (body more : ObjectBody) (name : String) :
    name ∈ (body.extend more).1.interfaces.map TypeRef.baseName ↔
      name ∈ body.interfaces.map TypeRef.baseName ++ more.interfaces.map TypeRef.baseName := by
  show name ∈ (addInterfaces body.interfaces more.interfaces).map _ ↔ _
  rw [addInterfaces_eq_append, List.map_append, List.mem_append, mem_names_newInterfaces, List.mem_append]

private theorem mem_interfaceNames_bodyExtend {body more : TypeBody} (hkeyword : body.keyword = more.keyword)
    (name : String) :
    name ∈ (body.extend more).1.interfaceNames ↔ name ∈ body.interfaceNames ++ more.interfaceNames := by
  unfold TypeBody.extend
  split
  · exact mem_interfaceNames_objectExtend _ _ name
  · exact mem_interfaceNames_objectExtend _ _ name
  · rfl
  · rfl
  · rfl
  · rfl
  · cases body <;> cases more <;> simp_all [TypeBody.keyword, TypeBody.interfaceNames]

/-- A declaration is extended without errors by more of the same kind. -/
private theorem typeExtend_ok {type more : TypeDecl} (h : (type.extend more).2 = []) :
    (type.extend more).1.name = type.name ∧
      (type.extend more).1.body.uses.Perm (type.body.uses ++ more.body.usesBeyond type.body.interfaceNames) ∧
        ∀ name, name ∈ (type.extend more).1.body.interfaceNames ↔
          name ∈ type.body.interfaceNames ++ more.body.interfaceNames := by
  unfold TypeDecl.extend at h ⊢
  split at h
  · next hkeyword =>
    rw [if_pos hkeyword]
    dsimp only at h ⊢
    refine ⟨rfl, uses_bodyExtend hkeyword ?_, mem_interfaceNames_bodyExtend hkeyword⟩
    split at h
    · cases h
    · assumption
  · cases h

/-! ### Assembling -/

private theorem flatMap_put {α β : Type} [HasName α] {members : List α} {a b : α} {f : α → List β} {more : List β}
    (h : Members.Distinct members) (hb : Members.get? (HasName.name a) members = some b)
    (hf : (f a).Perm (f b ++ more)) : ((Members.put a members).flatMap f).Perm (members.flatMap f ++ more) := by
  have hname : HasName.name b = HasName.name a := Members.name_of_get? hb
  have hold : members.Perm (b :: Members.erase (HasName.name b) members) := by
    have hperm := h.put_perm_cons (a := b)
    rwa [Members.put_self (hname ▸ hb)] at hperm
  have hnew : ((Members.put a members).flatMap f).Perm (f a ++ (Members.erase (HasName.name a) members).flatMap f) :=
    h.put_perm_cons.flatMap_right f
  have hold : (members.flatMap f).Perm (f b ++ (Members.erase (HasName.name a) members).flatMap f) :=
    hname ▸ hold.flatMap_right f
  refine hnew.trans (((hf.append_right _).trans ?_).trans (hold.symm.append_right _))
  rw [List.append_assoc, List.append_assoc]
  exact List.perm_append_comm.append_left _

namespace Schema

variable {schema next : Schema} {declarations : List Declaration}

/-- What the types of the schema list as interfaces. -/
private def ListedAs (schema : Schema) (listed : String → List String) : Prop :=
  ∀ name type, schema.type? name = some type → ∀ interface, interface ∈ type.body.interfaceNames ↔ interface ∈ listed name

private theorem uses_redeclare {type type' : TypeDecl} {more : List TypeUse} (h : schema.declaration = some type)
    (huses : type'.body.uses.Perm (type.body.uses ++ more)) :
    ({ schema with declaration := some type' } : Schema).uses.Perm (schema.uses ++ more) := by
  unfold uses
  rw [h]
  simp only [Option.toList_some, List.flatMap_append, List.flatMap_singleton, List.append_assoc]
  refine .append_left _ ((huses.append_right _).trans ?_)
  rw [List.append_assoc]
  exact List.perm_append_comm.append_left _

private theorem uses_retype {type type' : TypeDecl} {more : List TypeUse} (horderly : schema.Orderly)
    (h : schema.type? type'.name = some type) (huses : type'.body.uses.Perm (type.body.uses ++ more)) :
    ({ schema with types := Members.put type' schema.types } : Schema).uses.Perm (schema.uses ++ more) := by
  unfold uses
  simp only [List.flatMap_append, List.append_assoc]
  refine ((flatMap_put (f := (·.body.uses)) horderly.types h huses).append_right _).trans ?_
  rw [List.append_assoc]
  refine .append_left _ ?_
  rw [← List.append_assoc (Option.toList _ |>.flatMap _)]
  exact List.perm_append_comm

/-- What an extension adds. -/
private theorem extend_ok (horderly : schema.Orderly) {listed : String → List String} (hlisted : schema.ListedAs listed)
    {more : TypeDecl} (h : schema.extend (.extension more) = (next, [])) :
    next.uses.Perm (schema.uses ++ more.body.usesBeyond (listed more.name)) ∧
      next.ListedAs (Function.update listed more.name (listed more.name ++ more.body.interfaceNames)) := by
  unfold Schema.extend at h
  dsimp only at h
  split at h
  · cases h
  · next type hextended =>
    obtain ⟨hnext, herrors⟩ := Prod.ext_iff.1 h
    obtain ⟨hname, huses, hnames⟩ := typeExtend_ok herrors
    dsimp only at hnext
    rw [← hnext]
    unfold extended? at hextended
    unfold replace
    split at hextended
    · next roots hroots =>
      -- the schema lists no interfaces
      rw [hroots] at huses ⊢
      refine ⟨uses_redeclare hextended huses, ?_⟩
      show schema.ListedAs (Function.update listed more.name (listed more.name ++ []))
      rwa [List.append_nil, Function.update_eq_self]
    · next hkind =>
      have htype : type.name = more.name := Members.name_of_get? hextended
      have hlistedType := hlisted _ _ hextended
      rw [usesBeyond_congr hlistedType] at huses
      rw [← htype, ← hname] at hextended
      refine ⟨uses_retype horderly hextended huses, fun name found hfound interface => ?_⟩
      have hfound : Members.get? name (Members.put (type.extend more).1 schema.types) = some found := hfound
      rw [Members.get?_put, show HasName.name (type.extend more).1 = more.name from hname.trans htype] at hfound
      split at hfound
      · next hsame =>
        cases hfound
        rw [hnames, ← hsame, Function.update_self, List.mem_append, List.mem_append, hlistedType]
      · next hother =>
        rw [Function.update_of_ne (Ne.symm hother)]
        exact hlisted name found hfound interface

private theorem uses_steps_extend (horderly : schema.Orderly) {listed : String → List String}
    (hlisted : schema.ListedAs listed) (h : steps extend schema declarations = (next, [])) :
    next.uses.Perm (schema.uses ++ extensionUses listed (declarations.filterMap Declaration.extension?)) := by
  induction declarations generalizing schema listed with
  | nil =>
    obtain ⟨rfl, -⟩ := Prod.ext_iff.1 h
    rw [List.filterMap_nil, extensionUses, List.append_nil]
    exact .refl _
  | cons d rest ih =>
    obtain ⟨middle, hextend, hrest⟩ := steps_cons_eq_iff.1 h
    cases d with
    | type type | directive decl =>
      obtain ⟨rfl, -⟩ := Prod.ext_iff.1 hextend
      exact ih horderly hlisted hrest
    | extension more =>
      obtain ⟨huses, hmiddle⟩ := extend_ok horderly hlisted hextend
      have horderly' := horderly.extend (.extension more)
      rw [hextend] at horderly'
      refine (ih horderly' hmiddle hrest).trans ?_
      show (middle.uses ++ _).Perm (schema.uses ++ (more.body.usesBeyond (listed more.name) ++ _))
      rw [← List.append_assoc]
      exact huses.append_right _

/-- A new type or directive is added. -/
private theorem insert_ok {d : Declaration} (hd : d.isExtension = false) (h : schema.insert d = (next, [])) :
    next.uses.Perm (schema.uses ++ d.uses) := by
  cases d with
  | extension more => cases hd
  | directive decl =>
    have h : schema.insertDirective decl = (next, []) := h
    unfold insertDirective at h
    split at h
    · cases h
    · obtain ⟨rfl, -⟩ := Prod.ext_iff.1 h
      simp [uses, Declaration.uses]
  | type type =>
    have h : schema.insertType type = (next, []) := h
    unfold insertType at h
    split at h
    · split at h
      · cases h
      · next hnone =>
        have hnone : schema.declaration = none := by simpa using hnone
        obtain ⟨rfl, -⟩ := Prod.ext_iff.1 h
        simp only [uses, hnone, Declaration.uses, Option.toList_some, Option.toList_none, List.append_nil,
          List.flatMap_append, List.flatMap_singleton, List.append_assoc]
        exact List.perm_append_comm.append_left _
    · split at h
      · cases h
      · obtain ⟨rfl, -⟩ := Prod.ext_iff.1 h
        simp only [uses, Declaration.uses, List.flatMap_append, List.flatMap_singleton, List.append_assoc]
        refine .append_left _ ?_
        rw [← List.append_assoc (Option.toList _ |>.flatMap _)]
        exact List.perm_append_comm

private theorem uses_steps_insert (h : steps insert schema declarations = (next, [])) :
    next.uses.Perm (schema.uses ++ (declarations.filter (!·.isExtension)).flatMap Declaration.uses) := by
  induction declarations generalizing schema with
  | nil =>
    obtain ⟨rfl, -⟩ := Prod.ext_iff.1 h
    rw [List.filter_nil, List.flatMap_nil, List.append_nil]
    exact .refl _
  | cons d rest ih =>
    obtain ⟨middle, hinsert, hrest⟩ := steps_cons_eq_iff.1 h
    cases hd : d.isExtension with
    | true =>
      have hsame : middle = schema := by
        cases d with
        | extension more => exact (Prod.ext_iff.1 hinsert).1.symm
        | type _ | directive _ => cases hd
      rw [List.filter_cons_of_neg (by simp [hd])]
      exact hsame ▸ ih hrest
    | false =>
      rw [List.filter_cons_of_pos (by simp [hd]), List.flatMap_cons, ← List.append_assoc]
      exact (ih hrest).trans ((insert_ok hd hinsert).append_right _)

private theorem types_steps_insert (horderly : schema.Orderly) (h : steps insert schema declarations = (next, [])) :
    next.types = schema.types ++ declarations.filterMap Declaration.type? := ((steps_insert_iff horderly).1 h).types

/-- What a batch adds to the uses of types if it is put in without errors. -/
theorem uses_assemble (horderly : schema.Orderly) (h : (schema.assemble declarations).2 = []) :
    (schema.assemble declarations).1.uses.Perm (schema.uses ++ schema.usesAdded declarations) := by
  obtain ⟨inserted, hinsert, hextend⟩ := assemble_eq_ok_iff.1 (Prod.ext rfl h)
  have htypes := types_steps_insert horderly hinsert
  have horderly' : (steps insert schema declarations).1.Orderly := steps_induction (fun _ d _ h => h.insert d) horderly
  rw [hinsert] at horderly'
  have hlisted : inserted.ListedAs (schema.listedBy declarations) := by
    intro name type htype interface
    unfold listedBy
    rw [← htypes, show Members.get? name inserted.types = some type from htype]
  refine (uses_steps_extend horderly' hlisted hextend).trans ?_
  unfold usesAdded
  rw [← List.append_assoc]
  exact (uses_steps_insert hinsert).append_right _

/-- The types that there are after a batch is put in without errors. -/
theorem hasType_assemble_of_ok (horderly : schema.Orderly) (h : (schema.assemble declarations).2 = []) (name : String) :
    (schema.assemble declarations).1.hasType name = schema.knows declarations name := by
  obtain ⟨inserted, hinsert, -⟩ := assemble_eq_ok_iff.1 (Prod.ext rfl h)
  rw [hasType_assemble_eq, hinsert]
  unfold hasType knows Members.contains
  rw [types_steps_insert horderly hinsert, List.any_append]
  rfl

/-! ### What is counted -/

private theorem usesBeyond_sublist (listed : List String) (body : TypeBody) :
    (body.usesBeyond listed).Sublist body.uses := by
  cases body with
  | object body | interface body => exact ((newInterfaces_sublist listed body.interfaces).map _).append_right _
  | scalar _ | union _ | enum _ | input _ | schema _ => exact .refl _

private theorem extensionUses_sublist (listed : String → List String) (extensions : List TypeDecl) :
    (extensionUses listed extensions).Sublist (extensions.flatMap (·.body.uses)) := by
  induction extensions generalizing listed with
  | nil => exact .slnil
  | cons more rest ih => exact (usesBeyond_sublist _ _).append (ih _)

private theorem uses_perm (declarations : List Declaration) :
    ((declarations.filter (!·.isExtension)).flatMap Declaration.uses ++
      (declarations.filterMap Declaration.extension?).flatMap (·.body.uses)).Perm
        (declarations.flatMap Declaration.uses) := by
  induction declarations with
  | nil => exact .refl _
  | cons d rest ih =>
    cases d with
    | type decl | directive decl =>
      rw [List.filter_cons_of_pos rfl, List.filterMap_cons_none rfl, List.flatMap_cons, List.append_assoc]
      exact ih.append_left _
    | extension more =>
      have hmore : (Declaration.extension more :: rest).filterMap Declaration.extension? =
          more :: rest.filterMap Declaration.extension? := rfl
      rw [List.filter_cons_of_neg Bool.false_ne_true, hmore, List.flatMap_cons, List.flatMap_cons]
      exact (List.perm_append_comm_assoc _ _ _).trans (ih.append_left _)

/-- Each use that is counted is one in the batch. -/
theorem usesAdded_subperm : (schema.usesAdded declarations).Subperm (declarations.flatMap Declaration.uses) :=
  ((extensionUses_sublist _ _).append_left _).subperm.trans (uses_perm declarations).subperm

theorem mem_of_usesAdded {use : TypeUse} (h : use ∈ schema.usesAdded declarations) :
    ∃ d ∈ declarations, use ∈ d.uses := List.mem_flatMap.1 (usesAdded_subperm.subset h)

/-- A listed interface that is not counted is listed already, or counted where it comes first. -/
private theorem counted_interface {listed : List String} {body : ObjectBody} {name : String}
    (h : name ∈ body.interfaces.map TypeRef.baseName) :
    name ∈ listed ∨ ∃ use ∈ (TypeBody.object body).usesBeyond listed, use.type.baseName = name := by
  refine ((mem_names_newInterfaces listed body.interfaces).2 (.inr h)).imp_right fun hnew => ?_
  obtain ⟨type, htype, rfl⟩ := List.mem_map.1 hnew
  exact ⟨_, List.mem_append_left _ (List.mem_map_of_mem htype), rfl⟩

private theorem counted_interfaceNames {listed : List String} {body : TypeBody} {name : String}
    (h : name ∈ body.interfaceNames) :
    name ∈ listed ∨ ∃ use ∈ body.usesBeyond listed, use.type.baseName = name := by
  cases body with
  | object body | interface body => exact counted_interface h
  | scalar _ | union _ | enum _ | input _ | schema _ => cases h

private theorem counted_body {listed : List String} {body : TypeBody} {use : TypeUse} (h : use ∈ body.uses) :
    use.type.baseName ∈ listed ∨ ∃ counted ∈ body.usesBeyond listed, counted.type.baseName = use.type.baseName := by
  have hobject (body : ObjectBody) (h : use ∈ (TypeBody.object body).uses) :
      use.type.baseName ∈ listed ∨
        ∃ counted ∈ (TypeBody.object body).usesBeyond listed, counted.type.baseName = use.type.baseName := by
    rcases List.mem_append.1 h with h | h
    · obtain ⟨type, htype, rfl⟩ := List.mem_map.1 h
      exact counted_interface (List.mem_map_of_mem htype)
    · exact .inr ⟨use, List.mem_append_right _ h, rfl⟩
  cases body with
  | object body | interface body => exact hobject body h
  | scalar _ | union _ | enum _ | input _ | schema _ => exact .inr ⟨use, h, rfl⟩

private theorem counted_extensions (listed : String → List String) {extensions : List TypeDecl} {more : TypeDecl}
    {use : TypeUse} (hmore : more ∈ extensions) (h : use ∈ more.body.uses) :
    (∃ name, use.type.baseName ∈ listed name) ∨
      ∃ counted ∈ extensionUses listed extensions, counted.type.baseName = use.type.baseName := by
  induction extensions generalizing listed with
  | nil => cases hmore
  | cons first rest ih =>
    have hfirst : (∃ counted ∈ first.body.usesBeyond (listed first.name), counted.type.baseName = use.type.baseName) →
        ∃ counted ∈ extensionUses listed (first :: rest), counted.type.baseName = use.type.baseName :=
      fun ⟨counted, hcounted, hname⟩ => ⟨counted, List.mem_append_left _ hcounted, hname⟩
    rcases List.mem_cons.1 hmore with rfl | hmore
    · exact (counted_body h).imp (fun hlisted => ⟨_, hlisted⟩) hfirst
    · rcases ih (Function.update listed first.name (listed first.name ++ first.body.interfaceNames)) hmore
        with ⟨name, hname⟩ | ⟨counted, hcounted, hname⟩
      · by_cases hsame : name = first.name
        · subst hsame
          rw [Function.update_self, List.mem_append] at hname
          rcases hname with hname | hname
          · exact .inl ⟨_, hname⟩
          · exact (counted_interfaceNames hname).imp (fun hlisted => ⟨_, hlisted⟩) hfirst
        · rw [Function.update_of_ne hsame] at hname
          exact .inl ⟨name, hname⟩
      · exact .inr ⟨counted, List.mem_append_right _ hcounted, hname⟩

private theorem eq_type_of_type? {d : Declaration} {type : TypeDecl} (h : d.type? = some type) : d = .type type := by
  cases d with
  | type decl =>
    unfold Declaration.type? at h
    dsimp only at h
    split at h
    · cases h
    · cases h
      rfl
  | directive _ | extension _ => cases h

private theorem use_of_interfaceNames {body : TypeBody} {name : String} (h : name ∈ body.interfaceNames) :
    ∃ use ∈ body.uses, use.type.baseName = name := by
  cases body with
  | object body | interface body =>
    obtain ⟨type, htype, rfl⟩ := List.mem_map.1 h
    exact ⟨_, List.mem_append_left _ (List.mem_map_of_mem htype), rfl⟩
  | scalar _ | union _ | enum _ | input _ | schema _ => cases h

/-- A name that is used is that of a type, or some use of it is counted, if all names in the schema are those of types. -/
theorem counted_of_mem (hclosed : schema.Closed) {d : Declaration} (hd : d ∈ declarations) {use : TypeUse}
    (huse : use ∈ d.uses) :
    schema.knows declarations use.type.baseName = true ∨
      ∃ counted ∈ schema.usesAdded declarations, counted.type.baseName = use.type.baseName := by
  have hinserted {d : Declaration} (hd : d ∈ declarations) (hnew : d.isExtension = false) {use : TypeUse}
      (huse : use ∈ d.uses) : use ∈ schema.usesAdded declarations :=
    List.mem_append_left _ (List.mem_flatMap.2 ⟨d, List.mem_filter.2 ⟨hd, by simp [hnew]⟩, huse⟩)
  cases d with
  | type _ | directive _ => exact .inr ⟨use, hinserted hd rfl huse, rfl⟩
  | extension more =>
    have hmore : more ∈ declarations.filterMap Declaration.extension? := List.mem_filterMap.2 ⟨_, hd, rfl⟩
    rcases counted_extensions (schema.listedBy declarations) hmore huse
      with ⟨name, hname⟩ | ⟨counted, hcounted, hname⟩
    · unfold listedBy at hname
      split at hname
      · next type htype =>
        obtain ⟨listing, hlisting, hsame⟩ := use_of_interfaceNames hname
        rw [← hsame]
        rcases List.mem_append.1 (Members.mem_of_get? htype) with hmem | hmem
        · have hfits := hclosed listing (mem_uses_iff.2 (.inl ⟨type, List.mem_append_left _ hmem, hlisting⟩))
          exact .inl (by rw [knows, hfits.hasType, Bool.true_or])
        · obtain ⟨d, hd, htype⟩ := List.mem_filterMap.1 hmem
          cases eq_type_of_type? htype
          exact .inr ⟨listing, hinserted hd rfl hlisting, rfl⟩
      · cases hname
    · exact .inr ⟨counted, List.mem_append_right _ hcounted, hname⟩

/-! ### What is reported -/

theorem danglingFault?_eq (type : TypeRef) :
    schema.danglingFault? type = type.unresolvedPos?.bind fun pos =>
      if schema.hasType type.baseName then none else some ⟨.undefinedType type.baseName, pos⟩ := by
  unfold danglingFault?
  induction type with
  | named name => cases h : schema.hasType name <;> simp [undefined?, h, TypeRef.unresolvedPos?]
  | unresolved name pos => cases h : schema.hasType name <;> simp [undefined?, h, TypeRef.unresolvedPos?, TypeRef.baseName]
  | list _ ih | nonNull _ ih => exact ih

/-- Of the references in a text those are reported whose names nothing declares. -/
private theorem reported (assembled : Schema) {text : List UInt8} {uses : List TypeUse}
    (hread : ∀ use ∈ uses, use.type.ReadIn schema text)
    (hstays : ∀ name, schema.hasType name = true → assembled.hasType name = true) :
    List.Forall₂ (TypeUse.ReportedBy text) (uses.filter fun use => !assembled.hasType use.type.baseName)
      (uses.filterMap fun use => assembled.danglingFault? use.type) := by
  induction uses with
  | nil => exact .nil
  | cons use rest ih =>
    obtain ⟨huse, hrest⟩ := List.forall_mem_cons.1 hread
    have hrest := ih hrest
    unfold TypeRef.ReadIn at huse
    cases hpos : use.type.unresolvedPos? with
    | none =>
      rw [hpos] at huse
      have hknown : assembled.hasType use.type.baseName = true := hstays _ huse
      rw [List.filter_cons_of_neg (by simp [hknown]), List.filterMap_cons_none (by simp [danglingFault?_eq, hpos])]
      exact hrest
    | some pos =>
      rw [hpos] at huse
      cases hknown : assembled.hasType use.type.baseName with
      | true =>
        rw [List.filter_cons_of_neg (by simp [hknown]),
          List.filterMap_cons_none (by simp [danglingFault?_eq, hpos, hknown])]
        exact hrest
      | false =>
        rw [List.filter_cons_of_pos (by simp [hknown]),
          List.filterMap_cons_some (b := ⟨.undefinedType use.type.baseName, pos⟩)
            (by simp [danglingFault?_eq, hpos, hknown])]
        exact .cons ⟨rfl, rfl, hpos, huse.2⟩ hrest

private theorem pos_of_reported {text : List UInt8} {uses : List TypeUse} {errors : List SchemaError}
    (h : List.Forall₂ (TypeUse.ReportedBy text) uses errors) :
    errors.map Located.pos = uses.filterMap (·.type.unresolvedPos?) := by
  induction h with
  | nil => rfl
  | cons hfirst _ ih =>
    rw [List.map_cons, List.filterMap_cons, hfirst.pos, ih]

theorem danglingFaults_eq : schema.danglingFaults = schema.uses.filterMap fun use => schema.danglingFault? use.type := by
  rw [danglingFaults, ← uses_references, List.filterMap_map]
  rfl

/-- A schema without unresolved references, to which a batch was added, has no dangling references of its own. -/
private theorem danglingFaults_assemble (h : schema.Reachable) (hassemble : (schema.assemble declarations).2 = []) :
    (schema.assemble declarations).1.danglingFaults.Perm
      ((schema.usesAdded declarations).filterMap fun use => (schema.assemble declarations).1.danglingFault? use.type) := by
  rw [danglingFaults_eq]
  refine ((uses_assemble h.orderly hassemble).filterMap _).trans ?_
  have hold : schema.uses.filterMap (fun use => (schema.assemble declarations).1.danglingFault? use.type) = [] := by
    refine List.filterMap_eq_nil_iff.2 fun use huse => ?_
    rw [danglingFault?_eq, ← resolved_eq_self_iff.1 h.resolved use huse, TypeRef.unresolvedPos?_resolved]
    rfl
  rw [List.filterMap_append, hold, List.nil_append]

/-- After assembling without errors, dangling references are reported, and all else is left to validation. -/
private theorem declare?_of_assemble (hassemble : (schema.assemble declarations).2 = []) :
    schema.declare? declarations =
      if (schema.assemble declarations).1.danglingFaults = [] then
        (schema.assemble declarations).1.resolved.normal.accept (schema.assemble declarations).1.resolved.faults
      else .error (schema.assemble declarations).1.danglingFaults := by
  unfold declare?
  revert hassemble
  obtain ⟨assembled, errors⟩ := schema.assemble declarations
  rintro rfl
  cases hdangling : assembled.danglingFaults <;> simp [accept, bind, Except.bind, hdangling]

/-- The uses of types in the batch, without interfaces that an extended type lists already, whose names are not those of
types. -/
def usesUnknown (schema : Schema) (declarations : List Declaration) : List TypeUse :=
  (schema.usesAdded declarations).filter fun use => !schema.knows declarations use.type.baseName

private theorem usesUnknown_eq_nil_iff :
    schema.usesUnknown declarations = [] ↔
      ∀ use ∈ schema.usesAdded declarations, schema.knows declarations use.type.baseName = true := by
  simp [usesUnknown, List.filter_eq_nil_iff]

/-- If no unknown name is counted there is none, as long as the schema itself has none. -/
theorem knows_of_usesUnknown (hclosed : schema.Closed) (h : schema.usesUnknown declarations = []) :
    ∀ d ∈ declarations, ∀ use ∈ d.uses, schema.knows declarations use.type.baseName = true := by
  intro d hd use huse
  rcases counted_of_mem hclosed hd huse with hknown | ⟨counted, hcounted, hname⟩
  · exact hknown
  · exact hname ▸ usesUnknown_eq_nil_iff.1 h counted hcounted

section Read

variable {source : List UInt8} (h : schema.Reachable) (hread : schema.read? source = .ok declarations)
  (hassemble : (schema.assemble declarations).2 = [])

include h hread hassemble in
/-- The dangling references are the uses of unknown names. -/
private theorem danglingFaults_reported : ∃ reported, (schema.assemble declarations).1.danglingFaults.Perm reported ∧
    List.Forall₂ (TypeUse.ReportedBy (Scanner.ofBytes source).rest) (schema.usesUnknown declarations) reported := by
  have hplaced : ∀ use ∈ schema.usesAdded declarations, use.type.ReadIn schema (Scanner.ofBytes source).rest := by
    intro use huse
    obtain ⟨d, hd, huse⟩ := mem_of_usesAdded huse
    exact (read?_placed hread).1 d hd use huse
  have hreported := reported (schema.assemble declarations).1 hplaced fun _ => hasType_assemble
  simp only [hasType_assemble_of_ok h.orderly hassemble] at hreported
  exact ⟨_, danglingFaults_assemble h hassemble, hreported⟩

include hread in
/-- Names of types stand at different places, and so do the errors about them. -/
private theorem nodup_of_reported {errors : List SchemaError}
    (hreported : List.Forall₂ (TypeUse.ReportedBy (Scanner.ofBytes source).rest) (schema.usesUnknown declarations)
      errors) : (errors.map Located.pos).Nodup := by
  rw [pos_of_reported hreported]
  have hcounted : (schema.usesUnknown declarations).Subperm (declarations.flatMap Declaration.uses) :=
    List.filter_sublist.subperm.trans usesAdded_subperm
  obtain ⟨sorted, hperm, hsublist⟩ := hcounted
  exact (hperm.filterMap _).nodup_iff.1 ((read?_placed hread).2.sublist (hsublist.filterMap _))

include h hassemble in
/-- Where all names are known, resolving leaves no reference open. -/
private theorem resolved_of_known (hnone : schema.usesUnknown declarations = []) :
    ∀ use ∈ (schema.assemble declarations).1.resolved.uses, use.type.unresolvedPos? = none ∧
      (use ∈ schema.uses ∨ (schema.assemble declarations).1.resolved.hasType use.type.baseName = true) := by
  intro use huse
  rw [uses_resolved] at huse
  obtain ⟨given, hgiven, rfl⟩ := List.mem_map.1 huse
  refine ⟨TypeRef.unresolvedPos?_resolved _, ?_⟩
  rcases List.mem_append.1 ((uses_assemble h.orderly hassemble).mem_iff.1 hgiven) with hold | hadded
  · exact .inl (by rwa [resolved_eq_self_iff.1 h.resolved given hold])
  · rw [hasType_resolved, baseName_resolved, hasType_assemble_of_ok h.orderly hassemble]
    exact .inr (usesUnknown_eq_nil_iff.1 hnone given hadded)

end Read

/-- Resolving a batch that was read against a reachable schema and put in without errors. If all names of types are
known, then no reference stays unresolved, and each reference that is added is to a type. Otherwise there is one error
for each use of an unknown name, with the place of that use, and no other; no two have the same place. -/
theorem Reachable.resolves_or_reports {source : List UInt8} (h : schema.Reachable)
    (hread : schema.read? source = .ok declarations) (hassemble : (schema.assemble declarations).2 = []) :
    let assembled := (schema.assemble declarations).1
    (schema.usesUnknown declarations = [] →
      schema.declare? declarations = assembled.resolved.normal.accept assembled.resolved.faults ∧
        ∀ use ∈ assembled.resolved.uses, use.type.unresolvedPos? = none ∧
          (use ∈ schema.uses ∨ assembled.resolved.hasType use.type.baseName = true)) ∧
    (schema.usesUnknown declarations ≠ [] →
      ∃ errors reported, schema.add declarations = (schema, errors) ∧ errors.Perm reported ∧
        List.Forall₂ (TypeUse.ReportedBy (Scanner.ofBytes source).rest) (schema.usesUnknown declarations) reported ∧
          (reported.map Located.pos).Nodup) ∧
    ((∀ d ∈ declarations, ∀ use ∈ d.uses, schema.knows declarations use.type.baseName = true) →
      schema.usesUnknown declarations = []) ∧
    (schema.Closed → schema.usesUnknown declarations = [] →
      ∀ d ∈ declarations, ∀ use ∈ d.uses, schema.knows declarations use.type.baseName = true) := by
  intro assembled
  obtain ⟨reported, hperm, hreported⟩ := danglingFaults_reported h hread hassemble
  refine ⟨fun hnone => ⟨?_, resolved_of_known h hassemble hnone⟩, fun hsome => ?_, fun hall => ?_, knows_of_usesUnknown⟩
  · rw [hnone] at hreported
    rw [List.forall₂_nil_left_iff.1 hreported, List.perm_nil] at hperm
    rw [declare?_of_assemble hassemble, if_pos hperm]
  · refine ⟨_, reported, ?_, hperm, hreported, nodup_of_reported hread hreported⟩
    rw [Schema.add, declare?_of_assemble hassemble, if_neg]
    intro hdangling
    rw [hdangling, List.nil_perm] at hperm
    rw [hperm, List.forall₂_nil_right_iff] at hreported
    exact hsome hreported
  · refine usesUnknown_eq_nil_iff.2 fun use huse => ?_
    obtain ⟨d, hd, huse⟩ := mem_of_usesAdded huse
    exact hall d hd use huse

/-- What is read from `type A implements I{a(x:X):[B!]}extend type A implements I&J{b:A}`. -/
private def chart : List Declaration :=
  [.type {
      name := "A"
      pos := ⟨1, 1⟩
      body := .object {
        interfaces := [.unresolved "I" ⟨1, 19⟩]
        fields := [{
          name := "a"
          type := .list (.nonNull (.unresolved "B" ⟨1, 29⟩))
          args := [{ name := "x", type := .unresolved "X" ⟨1, 25⟩, pos := ⟨1, 23⟩ }]
          pos := ⟨1, 21⟩ }] } },
    .extension {
      name := "A"
      pos := ⟨1, 40⟩
      body := .object {
        interfaces := [.unresolved "I" ⟨1, 58⟩, .unresolved "J" ⟨1, 60⟩]
        fields := [{ name := "b", type := .unresolved "A" ⟨1, 64⟩, pos := ⟨1, 62⟩ }] } }]

private theorem chart_read :
    Schema.read? {} "type A implements I{a(x:X):[B!]}extend type A implements I&J{b:A}".toUTF8.toList = .ok chart := by
  have hbytes : "type A implements I{a(x:X):[B!]}extend type A implements I&J{b:A}".toUTF8.toList =
      [116, 121, 112, 101, 32, 65, 32, 105, 109, 112, 108, 101, 109, 101, 110, 116, 115, 32, 73, 123, 97, 40, 120, 58,
        88, 41, 58, 91, 66, 33, 93, 125, 101, 120, 116, 101, 110, 100, 32, 116, 121, 112, 101, 32, 65, 32, 105, 109, 112,
        108, 101, 109, 101, 110, 116, 115, 32, 73, 38, 74, 123, 98, 58, 65, 125] := by
    decide +kernel
  rw [hbytes]
  cbv

/-- Four names are unknown; the extension lists `I` again, which is not counted. -/
theorem chart_reports :
    (({} : Schema).usesUnknown chart).map (·.type.baseName) = ["I", "B", "X", "J"] ∧
      ∃ errors reported, Schema.add {} chart = ({}, errors) ∧ errors.Perm reported ∧
        List.Forall₂
          (TypeUse.ReportedBy
            (Scanner.ofBytes
              "type A implements I{a(x:X):[B!]}extend type A implements I&J{b:A}".toUTF8.toList).rest)
          (({} : Schema).usesUnknown chart) reported ∧
        (reported.map Located.pos).Nodup := by
  have hunknown : (({} : Schema).usesUnknown chart).map (·.type.baseName) = ["I", "B", "X", "J"] := by
    decide +kernel
  refine ⟨hunknown, (Reachable.empty.resolves_or_reports chart_read (by cbv)).2.1 fun hnone => ?_⟩
  rw [hnone] at hunknown
  cases hunknown

end Schema

end GraphQL
