import GraphQL.Proofs.Schema.Inserted
import GraphQL.Proofs.Schema.Normal

/-!
# Entries that come more than once

Extensions add to the interfaces of a type and to the members of a union only names that are not listed yet, over any
number of batches (`TypeDecl.Extends`). The declaration of the type itself is taken as it is read. So a name is listed
twice exactly where such a declaration does it, and possible types come more than once exactly for the unions among
these (`Schema.MadeOf.listed_once`).
-/

namespace GraphQL

/-! ### Lists of names that grow -/

/-- The later names are the earlier ones, and then new names, each once. -/
def Appends (earlier later : List String) : Prop :=
  ∃ added, later = earlier ++ added ∧ added.Nodup ∧ earlier.Disjoint added

namespace Appends

variable {earlier later last : List String}

theorem refl (names : List String) : Appends names names :=
  ⟨[], by simp, List.nodup_nil, List.disjoint_nil_right names⟩

theorem trans (h : Appends earlier later) (h' : Appends later last) : Appends earlier last := by
  obtain ⟨added, rfl, hadded, hnew⟩ := h
  obtain ⟨more, rfl, hmore, hnew'⟩ := h'
  obtain ⟨hearlier, hdisjoint⟩ := List.disjoint_append_left.1 hnew'
  exact ⟨added ++ more, by simp, hadded.append hmore hdisjoint, List.disjoint_append_right.2 ⟨hnew, hearlier⟩⟩

theorem concat {name : String} (h : name ∉ earlier) : Appends earlier (earlier ++ [name]) :=
  ⟨[name], rfl, List.nodup_singleton name, List.disjoint_singleton.2 h⟩

/-- Only the earlier names can come more than once. -/
theorem nodup_iff (h : Appends earlier later) : later.Nodup ↔ earlier.Nodup := by
  obtain ⟨added, rfl, hadded, hnew⟩ := h
  exact ⟨List.Nodup.of_append_left, fun hearlier => hearlier.append hadded hnew⟩

end Appends

private theorem appends_concat {members : List TypeRef} {type : TypeRef}
    (h : ¬ (members.map TypeRef.baseName).contains type.baseName = true) :
    Appends (members.map TypeRef.baseName) ((members ++ [type]).map TypeRef.baseName) := by
  rw [List.map_append]
  exact .concat fun hmem => h (List.contains_iff_mem.2 hmem)

theorem appends_addReferences (more : List TypeRef) :
    ∀ members : List TypeRef,
      Appends (members.map TypeRef.baseName) ((addReferences members more).1.map TypeRef.baseName) := by
  induction more with
  | nil => exact fun members => .refl _
  | cons type rest ih =>
    intro members
    unfold addReferences
    split
    · exact .refl _
    · next hnew => exact (appends_concat hnew).trans (ih _)

theorem appends_addInterfaces (more : List TypeRef) :
    ∀ interfaces : List TypeRef,
      Appends (interfaces.map TypeRef.baseName) ((addInterfaces interfaces more).map TypeRef.baseName) := by
  induction more with
  | nil => exact fun interfaces => .refl _
  | cons type rest ih =>
    intro interfaces
    unfold addInterfaces
    split
    · exact ih interfaces
    · next hnew => exact (appends_concat hnew).trans (ih _)

/-! ### Types that grow -/

namespace TypeBody

/-- The names of the interfaces or members that are listed. -/
def listed : TypeBody → List String
  | .object body | .interface body => body.interfaces.map TypeRef.baseName
  | .union members => members.map TypeRef.baseName
  | _ => []

theorem union_iff_keyword {body : TypeBody} : (∃ members, body = .union members) ↔ body.keyword = "union" := by
  cases body <;> simp [keyword]

theorem listed_extend (body more : TypeBody) : Appends body.listed (body.extend more).1.listed := by
  unfold TypeBody.extend
  split
  · exact appends_addInterfaces _ _
  · exact appends_addInterfaces _ _
  · exact appends_addReferences _ _
  · exact .refl _
  · exact .refl _
  · exact .refl _
  · exact .refl _

theorem keyword_extend (body more : TypeBody) : (body.extend more).1.keyword = body.keyword := by
  unfold TypeBody.extend
  split <;> rfl

theorem listed_resolved (body : TypeBody) : body.resolved.listed = body.listed := by
  have hlist (types : List TypeRef) :
      (types.map TypeRef.resolved).map TypeRef.baseName = types.map TypeRef.baseName :=
    map_map_congr Schema.baseName_resolved types
  cases body with
  | object body => exact hlist body.interfaces
  | interface body => exact hlist body.interfaces
  | union members => exact hlist members
  | scalar _ | enum _ | input _ | schema _ => rfl

theorem keyword_resolved (body : TypeBody) : body.resolved.keyword = body.keyword := by cases body <;> rfl

theorem listed_normal (c : Coercion) (body : TypeBody) : (c.normalBody body).listed = body.listed := by
  cases body <;> rfl

theorem keyword_normal (c : Coercion) (body : TypeBody) : (c.normalBody body).keyword = body.keyword := by
  cases body <;> rfl

end TypeBody

/-- The type is of the name and kind of an earlier one, and lists what that does and then new names, each once. -/
structure TypeDecl.Extends (type earlier : TypeDecl) : Prop where
  name : type.name = earlier.name
  keyword : type.body.keyword = earlier.body.keyword
  listed : Appends earlier.body.listed type.body.listed

namespace TypeDecl.Extends

variable {type earlier : TypeDecl}

theorem refl (type : TypeDecl) : type.Extends type := ⟨rfl, rfl, .refl _⟩

theorem extend (h : type.Extends earlier) (more : TypeDecl) : (type.extend more).1.Extends earlier := by
  unfold TypeDecl.extend
  split
  · exact ⟨h.name, (TypeBody.keyword_extend _ _).trans h.keyword, h.listed.trans (TypeBody.listed_extend _ _)⟩
  · exact h

theorem resolved (h : type.Extends earlier) : type.resolved.Extends earlier where
  name := h.name
  keyword := (TypeBody.keyword_resolved _).trans h.keyword
  listed := (TypeBody.listed_resolved type.body).symm ▸ h.listed

theorem normal (h : type.Extends earlier) (c : Coercion) : (c.normalType type).Extends earlier where
  name := h.name
  keyword := (TypeBody.keyword_normal c _).trans h.keyword
  listed := (TypeBody.listed_normal c type.body).symm ▸ h.listed

end TypeDecl.Extends

namespace Schema

variable {schema next : Schema} {declared declarations : List Declaration} {type : TypeDecl} {d : Declaration}

/-! ### Schemas and what they are made of -/

/-- The schema is made, from nothing, by declaring batches of what is built in or read, which are all that is
declared. -/
inductive MadeOf : List Declaration → Schema → Prop
  | empty : MadeOf [] {}
  | declare {schema next : Schema} {declared declarations : List Declaration} (hschema : MadeOf declared schema)
      (hread : ∀ d ∈ declarations, d.IsRead) (h : schema.declare? declarations = .ok next) :
      MadeOf (declared ++ declarations) next

theorem MadeOf.reachable (h : MadeOf declared schema) : schema.Reachable := by
  induction h with
  | empty => exact .empty
  | declare _ hread hnext ih => exact .declare ih hread hnext

theorem Reachable.madeOf (h : schema.Reachable) : ∃ declared, MadeOf declared schema := by
  induction h with
  | empty => exact ⟨[], .empty⟩
  | declare _ hread hnext ih =>
    obtain ⟨declared, hdeclared⟩ := ih
    exact ⟨_, .declare hdeclared hread hnext⟩

/-- All types of the schema extend types that are declared. -/
def Extends (schema : Schema) (declared : List Declaration) : Prop :=
  ∀ type ∈ schema.types, ∃ own, .type own ∈ declared ∧ type.Extends own

namespace Extends

theorem mono (h : schema.Extends declared) (hsub : declared ⊆ declarations) : schema.Extends declarations := by
  intro type htype
  obtain ⟨own, hown, hextends⟩ := h type htype
  exact ⟨own, hsub hown, hextends⟩

private theorem insert (h : schema.Extends declared) (hd : d ∈ declared) : (schema.insert d).1.Extends declared := by
  cases d with
  | directive decl =>
    show (schema.insertDirective decl).1.Extends declared
    unfold insertDirective
    split <;> exact h
  | extension more => exact h
  | type type =>
    show (schema.insertType type).1.Extends declared
    unfold insertType
    split
    · split <;> exact h
    · split
      · exact h
      · intro other hother
        rcases List.mem_append.1 hother with hother | hother
        · exact h other hother
        · rw [List.mem_singleton.1 hother]
          exact ⟨type, hd, .refl type⟩

private theorem extend (h : schema.Extends declared) (d : Declaration) : (schema.extend d).1.Extends declared := by
  cases d with
  | type type => exact h
  | directive decl => exact h
  | extension more =>
    unfold Schema.extend
    dsimp only
    split
    · exact h
    · next type hextended =>
      unfold extended? at hextended
      unfold replace
      dsimp only
      split
      · exact h
      · next hkind =>
        intro other hother
        -- what is put in is the type that was extended, which has a declaration of its own already
        rcases Members.mem_put hother with rfl | hother
        · split at hextended
          · exact absurd ‹_› (hkind _)
          · obtain ⟨own, hown, hextends⟩ := h type (Members.mem_of_get? hextended)
            exact ⟨own, hown, hextends.extend more⟩
        · exact h other hother

private theorem map (h : schema.Extends declared) {f : TypeDecl → TypeDecl}
    (hf : ∀ {type earlier : TypeDecl}, type.Extends earlier → (f type).Extends earlier) :
    ∀ type ∈ schema.types.map f, ∃ own, .type own ∈ declared ∧ type.Extends own := by
  refine List.forall_mem_map.2 fun type htype => ?_
  obtain ⟨own, hown, hextends⟩ := h type htype
  exact ⟨own, hown, hf hextends⟩

theorem declare? (h : schema.Extends declared) (hnext : schema.declare? declarations = .ok next) :
    next.Extends (declared ++ declarations) := by
  obtain ⟨-, -, -, rfl⟩ := declare?_eq_ok_iff.1 hnext
  have hassembled : (schema.assemble declarations).1.Extends (declared ++ declarations) :=
    assemble_induction (P := (Extends · (declared ++ declarations)))
      (fun _ d hd h => h.insert (List.mem_append_right _ hd)) (fun _ d _ h => h.extend d)
      (h.mono (List.subset_append_left _ _))
  have hresolved : (schema.assemble declarations).1.resolved.Extends (declared ++ declarations) :=
    hassembled.map fun hextends => hextends.resolved
  exact hresolved.map fun hextends => hextends.normal _

end Extends

theorem MadeOf.extends (h : MadeOf declared schema) : schema.Extends declared := by
  induction h with
  | empty => exact fun type htype => absurd htype (by simp)
  | declare _ _ hnext ih => exact ih.declare? hnext

/-! ### Possible types -/

private theorem names_filterMap_named? {members : List TypeRef}
    (h : ∀ member ∈ members, schema.Fits ⟨.object, member⟩) :
    Members.names (members.filterMap schema.named?) = members.map TypeRef.baseName := by
  induction members with
  | nil => rfl
  | cons member rest ih =>
    obtain ⟨⟨decl, hdecl, -⟩, hrest⟩ := List.forall_mem_cons.1 h
    have hdecl : schema.named? member = some decl := hdecl
    have hname : HasName.name decl = member.baseName := Members.name_of_get? hdecl
    rw [List.filterMap_cons, hdecl, List.map_cons, ← ih hrest, ← hname]
    rfl

/-- The possible types of a union of a valid schema are its members. -/
theorem Valid.possibleTypes_union (h : schema.Valid) (htype : schema.type? type.name = some type)
    {members : List TypeRef} (hbody : type.body = .union members) :
    Members.names (schema.possibleTypes type.name) = type.body.listed := by
  have hfits : ∀ member ∈ members, schema.Fits ⟨.object, member⟩ := by
    intro member hmember
    refine fits_of_faults h.faults (mem_uses_iff.2 (.inl ⟨type, ?_, ?_⟩)) nofun
    · exact List.mem_append_left _ (Members.mem_of_get? htype)
    · exact hbody ▸ List.mem_map_of_mem hmember
  unfold possibleTypes
  rw [htype, Option.map_some, hbody]
  exact names_filterMap_named? hfits

/-- Only a union can have a possible type more than once. -/
theorem possibleTypes_distinct (h : schema.Orderly) (abstract : String)
    (hunion : ∀ type members, schema.type? abstract = some type → type.body ≠ .union members) :
    Members.Distinct (schema.possibleTypes abstract) := by
  unfold possibleTypes
  split
  · next members hmembers =>
    obtain ⟨type, htype, hbody⟩ := Option.map_eq_some_iff.1 hmembers
    exact absurd hbody (hunion type members htype)
  · exact h.types.sublist (List.filter_sublist.map _)
  · exact .nil

/-! ### What is listed twice -/

/-- In a schema that is made of what is declared, each type extends its own declaration: it lists what that does, and
then names that extensions add, none of which is listed before. So it lists a name twice exactly if its own declaration
does, and it has a possible type twice exactly if it is a union and its own declaration has a member twice. -/
theorem MadeOf.listed_once (h : MadeOf declared schema) (htype : type ∈ schema.types) :
    ∃ own, .type own ∈ declared ∧ type.Extends own ∧ (type.body.listed.Nodup ↔ own.body.listed.Nodup) ∧
      (Members.Distinct (schema.possibleTypes type.name) ↔
        ∀ members, own.body = .union members → own.body.listed.Nodup) := by
  obtain ⟨own, hown, hextends⟩ := h.extends type htype
  have horderly := h.reachable.orderly
  have hget : schema.type? type.name = some type := horderly.types.get?_of_mem htype
  have hunion : (∃ members, type.body = .union members) ↔ ∃ members, own.body = .union members := by
    rw [TypeBody.union_iff_keyword, TypeBody.union_iff_keyword, hextends.keyword]
  refine ⟨own, hown, hextends, hextends.listed.nodup_iff, ?_⟩
  by_cases hkind : ∃ members, own.body = .union members
  · obtain ⟨members, hbody⟩ := hunion.2 hkind
    unfold Members.Distinct
    rw [h.reachable.valid.possibleTypes_union hget hbody, hextends.listed.nodup_iff]
    obtain ⟨members', hbody'⟩ := hkind
    exact ⟨fun hnodup _ _ => hnodup, fun hnodup => hnodup members' hbody'⟩
  · have hdistinct : Members.Distinct (schema.possibleTypes type.name) := by
      refine possibleTypes_distinct horderly type.name fun other members hother hbody => hkind (hunion.1 ?_)
      cases hget.symm.trans hother
      exact ⟨members, hbody⟩
    exact ⟨fun _ members hbody => absurd ⟨members, hbody⟩ hkind, fun _ => hdistinct⟩

/-- What is read from the declaration of a type with one field, `f:A`, from its keyword on. -/
private def plain (name : String) : TypeDecl where
  name := name
  pos := ⟨1, 1⟩
  body := .object { fields := [{ name := "f", type := .unresolved "A" ⟨1, 10⟩, pos := ⟨1, 8⟩ }] }

/-- What is read from `union U=A|A` behind `type A{f:A}`. -/
private def either : TypeDecl where
  name := "U"
  pos := ⟨1, 12⟩
  body := .union [.unresolved "A" ⟨1, 20⟩, .unresolved "A" ⟨1, 22⟩]

/-- What is read from `extend union U=B` behind `type B{f:A}`. -/
private def further : TypeDecl where
  name := "U"
  pos := ⟨1, 19⟩
  body := .union [.unresolved "B" ⟨1, 27⟩]

private theorem either_read :
    Schema.read? {} "type A{f:A}union U=A|A".toUTF8.toList = .ok [.type (plain "A"), .type either] := by
  have hbytes : "type A{f:A}union U=A|A".toUTF8.toList =
      [116, 121, 112, 101, 32, 65, 123, 102, 58, 65, 125, 117, 110, 105, 111, 110, 32, 85, 61, 65, 124, 65] := by
    decide +kernel
  rw [hbytes]
  cbv

private theorem further_read :
    Schema.read? {} "type B{f:A}extend union U=B".toUTF8.toList = .ok [.type (plain "B"), .extension further] := by
  have hbytes : "type B{f:A}extend union U=B".toUTF8.toList =
      [116, 121, 112, 101, 32, 66, 123, 102, 58, 65, 125, 101, 120, 116, 101, 110, 100, 32, 117, 110, 105, 111, 110, 32,
        85, 61, 66] := by
    decide +kernel
  rw [hbytes]
  cbv

private def choice (members : List TypeRef) : TypeDecl :=
  { either with body := .union members }

private def choices : Schema where
  types := [(plain "A").resolved, choice [.named "A", .named "A", .named "B"], (plain "B").resolved]

private theorem choices_made :
    MadeOf [.type (plain "A"), .type either, .type (plain "B"), .extension further] choices := by
  have hfirst : Schema.declare? {} [.type (plain "A"), .type either] =
      .ok { types := [(plain "A").resolved, choice [.named "A", .named "A"]] } := by cbv
  have hsecond : Schema.declare? { types := [(plain "A").resolved, choice [.named "A", .named "A"]] }
      [.type (plain "B"), .extension further] = .ok choices := by cbv
  have hread {source : List UInt8} {declarations : List Declaration}
      (h : Schema.read? {} source = .ok declarations) : ∀ d ∈ declarations, d.IsRead :=
    fun d hd => .inr ⟨_, _, _, d, h, hd, .inl rfl⟩
  exact .declare (.declare .empty (hread either_read) hfirst) (hread further_read) hsecond

/-- A union whose declaration names a member twice is accepted, and keeps it twice when it is extended. -/
theorem choices_listed_twice :
    Members.names (choices.possibleTypes "U") = ["A", "A", "B"] ∧
      ¬ Members.Distinct (choices.possibleTypes "U") := by
  have htype : choice [.named "A", .named "A", .named "B"] ∈ choices.types := by simp [choices]
  obtain ⟨own, hown, hextends, -, hdistinct⟩ := choices_made.listed_once htype
  have hname : "U" = own.name := hextends.name
  have hown : own = either := by
    simp only [List.mem_cons, Declaration.type.injEq, reduceCtorEq, List.not_mem_nil, or_false] at hown
    rcases hown with rfl | rfl | rfl
    · exact absurd hname (by decide)
    · rfl
    · exact absurd hname (by decide)
  subst hown
  refine ⟨by cbv, fun h => ?_⟩
  exact absurd (hdistinct.1 h _ rfl) (by decide)

end Schema

end GraphQL
