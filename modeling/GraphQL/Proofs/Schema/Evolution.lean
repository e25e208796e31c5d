import GraphQL.Proofs.Schema.Reachable
import GraphQL.Proofs.Schema.References
import Mathlib.Data.List.Forall2

/-!
# How schemas grow

A schema only ever grows. What is declared stays, in its order: later declarations add types and directives behind it,
and members, interfaces and uses of directives behind those that a type has. `Schema.Grows` says what is kept of
everything that was declared. Only literals are not, since bringing a schema into normal form may coerce them again.
`Schema.Reachable.add_grows` says that an attempt to add declarations either reports errors and changes nothing, or
makes the schema grow.
-/

namespace GraphQL

/-! ### Lists that grow -/

section StartsWith

variable {α β : Type} {r : α → α → Prop} {s : β → β → Prop} {earlier later last : List α}

theorem forall₂_trans (hr : ∀ {a b c}, r a b → r b c → r a c) (h : List.Forall₂ r earlier later)
    (h' : List.Forall₂ r later last) : List.Forall₂ r earlier last := by
  induction h generalizing last with
  | nil => exact h'
  | cons hab _ ih =>
    cases h' with
    | cons hbc hrest => exact .cons (hr hab hbc) (ih hrest)

theorem forall₂_map_self {f : α → α} (hf : ∀ a, r a (f a)) (members : List α) :
    List.Forall₂ r members (members.map f) :=
  List.forall₂_map_right_iff.2 (List.forall₂_same.2 fun a _ => hf a)

theorem forall₂_map_map {f : α → β} (hf : ∀ a b, r a b → s (f a) (f b)) (h : List.Forall₂ r earlier later) :
    List.Forall₂ s (earlier.map f) (later.map f) :=
  List.forall₂_map_left_iff.2 (List.forall₂_map_right_iff.2 (h.imp hf))

/-- The later list starts with members that stand for the earlier ones, in their order. -/
def StartsWith (r : α → α → Prop) (earlier later : List α) : Prop :=
  ∃ kept added, later = kept ++ added ∧ List.Forall₂ r earlier kept

namespace StartsWith

theorem of_forall₂ (h : List.Forall₂ r earlier later) : StartsWith r earlier later :=
  ⟨later, [], (List.append_nil later).symm, h⟩

theorem of_prefixed (hr : ∀ a, r a a) (h : earlier <+: later) : StartsWith r earlier later := by
  obtain ⟨added, rfl⟩ := h
  exact ⟨earlier, added, rfl, List.forall₂_same.2 fun a _ => hr a⟩

theorem refl (hr : ∀ a, r a a) (members : List α) : StartsWith r members members := of_prefixed hr List.prefix_rfl

theorem trans (hr : ∀ {a b c}, r a b → r b c → r a c) (h : StartsWith r earlier later) (h' : StartsWith r later last) :
    StartsWith r earlier last := by
  obtain ⟨kept, added, rfl, hkept⟩ := h
  obtain ⟨kept', added', rfl, hkept'⟩ := h'
  -- the first of those that stand for the later members stand for the earlier ones
  have hfirst : List.Forall₂ r kept (kept'.take kept.length) :=
    (List.forall₂_take_append kept' kept added hkept'.flip).flip
  refine ⟨kept'.take kept.length, kept'.drop kept.length ++ added', ?_, forall₂_trans hr hkept hfirst⟩
  rw [← List.append_assoc, List.take_append_drop]

theorem map {f : α → β} (hf : ∀ a b, r a b → s (f a) (f b)) (h : StartsWith r earlier later) :
    StartsWith s (earlier.map f) (later.map f) := by
  obtain ⟨kept, added, rfl, hkept⟩ := h
  exact ⟨kept.map f, added.map f, List.map_append, forall₂_map_map hf hkept⟩

theorem map_self {f : α → α} (hf : ∀ a, r a (f a)) (members : List α) : StartsWith r members (members.map f) :=
  of_forall₂ (forall₂_map_self hf members)

section Named

variable [HasName α] {name : String} {a b : α}

/-- What stands for the member of a name is the member of that name later. -/
theorem get? (hname : ∀ {a b}, r a b → HasName.name b = HasName.name a) (h : StartsWith r earlier later)
    (ha : Members.get? name earlier = some a) : ∃ b, Members.get? name later = some b ∧ r a b := by
  obtain ⟨kept, added, rfl, hkept⟩ := h
  induction hkept with
  | nil => cases ha
  | @cons c d _ _ hcd _ ih =>
    unfold Members.get? at ha ih ⊢
    rw [List.cons_append]
    by_cases hc : HasName.name c = name
    · rw [List.find?_cons_of_pos (by simpa using hc)] at ha
      rw [List.find?_cons_of_pos (by simpa [hname hcd] using hc)]
      cases ha
      exact ⟨d, rfl, hcd⟩
    · rw [List.find?_cons_of_neg (by simpa using hc)] at ha
      rw [List.find?_cons_of_neg (by simpa [hname hcd] using hc)]
      exact ih ha

/-- A member may be put in the place of the one that it stands for. -/
theorem put (hr : ∀ a, r a a) (ha : Members.get? (HasName.name b) earlier = some a) (hab : r a b) :
    StartsWith r earlier (Members.put b earlier) := by
  refine of_forall₂ ?_
  induction earlier with
  | nil => cases ha
  | cons c rest ih =>
    unfold Members.get? at ha ih
    unfold Members.put
    by_cases hc : HasName.name c = HasName.name b
    · rw [List.find?_cons_of_pos (by simpa using hc)] at ha
      cases ha
      rw [if_pos hc]
      exact .cons hab (List.forall₂_same.2 fun a _ => hr a)
    · rw [List.find?_cons_of_neg (by simpa using hc)] at ha
      rw [if_neg hc]
      exact .cons (hr c) (ih ha)

end Named

end StartsWith

/-- What is set stays as it is. -/
def Stays {α : Type} (earlier later : Option α) : Prop := ∀ a, earlier = some a → later = some a

namespace Stays

variable {α : Type} {earlier later last : Option α}

theorem refl (a : Option α) : Stays a a := fun _ => id

theorem trans (h : Stays earlier later) (h' : Stays later last) : Stays earlier last := fun a ha => h' a (h a ha)

theorem orElse (a more : Option α) : Stays a (a <|> more) := by
  rintro b rfl
  rfl

theorem map {β : Type} (f : α → β) (h : Stays earlier later) : Stays (earlier.map f) (later.map f) := by
  intro b hb
  obtain ⟨a, ha, rfl⟩ := Option.map_eq_some_iff.1 hb
  rw [h a ha]
  rfl

end Stays

end StartsWith

/-! ### What is kept -/

/-- The later use is the earlier one, possibly with more arguments. -/
structure DirectiveUse.Grows (earlier later : DirectiveUse) : Prop where
  name : later.name = earlier.name
  pos : later.pos = earlier.pos
  args : Entries.keys earlier.args <+: Entries.keys later.args

/-- The later argument or input field is the earlier one, possibly with other literals. -/
structure InputValue.Grows (earlier later : InputValue) : Prop where
  name : later.name = earlier.name
  description : later.description = earlier.description
  type : later.type = earlier.type
  default : later.default.isSome = earlier.default.isSome
  directives : List.Forall₂ DirectiveUse.Grows earlier.directives later.directives
  pos : later.pos = earlier.pos

/-- The later field is the earlier one: it has the same type, and arguments of the same names and types. -/
structure FieldDef.Grows (earlier later : FieldDef) : Prop where
  name : later.name = earlier.name
  description : later.description = earlier.description
  type : later.type = earlier.type
  args : List.Forall₂ InputValue.Grows earlier.args later.args
  directives : List.Forall₂ DirectiveUse.Grows earlier.directives later.directives
  pos : later.pos = earlier.pos

/-- The later symbol is the earlier one. -/
structure EnumValue.Grows (earlier later : EnumValue) : Prop where
  name : later.name = earlier.name
  description : later.description = earlier.description
  directives : List.Forall₂ DirectiveUse.Grows earlier.directives later.directives
  pos : later.pos = earlier.pos

/-- The later object or interface has more interfaces and fields behind the earlier ones. -/
structure ObjectBody.Grows (earlier later : ObjectBody) : Prop where
  interfaces : earlier.interfaces <+: later.interfaces
  fields : StartsWith FieldDef.Grows earlier.fields later.fields

/-- Roots that are set stay as they are. -/
structure SchemaRoots.Grows (earlier later : SchemaRoots) : Prop where
  query : Stays earlier.query later.query
  mutation : Stays earlier.mutation later.mutation
  subscription : Stays earlier.subscription later.subscription

/-- The later body is of the same kind, with more members behind the earlier ones. -/
inductive TypeBody.Grows : TypeBody → TypeBody → Prop
  | scalar (kind : ScalarKind) : Grows (.scalar kind) (.scalar kind)
  | object {earlier later : ObjectBody} (h : earlier.Grows later) : Grows (.object earlier) (.object later)
  | interface {earlier later : ObjectBody} (h : earlier.Grows later) : Grows (.interface earlier) (.interface later)
  | union {earlier later : List TypeRef} (h : earlier <+: later) : Grows (.union earlier) (.union later)
  | enum {earlier later : List EnumValue} (h : StartsWith EnumValue.Grows earlier later) :
    Grows (.enum earlier) (.enum later)
  | input {earlier later : List InputValue} (h : StartsWith InputValue.Grows earlier later) :
    Grows (.input earlier) (.input later)
  | schema {earlier later : SchemaRoots} (h : earlier.Grows later) : Grows (.schema earlier) (.schema later)

/-- The later declaration is the earlier one with more behind what it had. -/
structure TypeDecl.Grows (earlier later : TypeDecl) : Prop where
  name : later.name = earlier.name
  description : Stays earlier.description later.description
  directives : StartsWith DirectiveUse.Grows earlier.directives later.directives
  pos : later.pos = earlier.pos
  builtin : later.builtin = earlier.builtin
  body : earlier.body.Grows later.body

/-- The later directive is the earlier one. -/
structure DirectiveDecl.Grows (earlier later : DirectiveDecl) : Prop where
  name : later.name = earlier.name
  description : later.description = earlier.description
  args : List.Forall₂ InputValue.Grows earlier.args later.args
  locations : later.locations = earlier.locations
  repeatable : later.repeatable = earlier.repeatable
  pos : later.pos = earlier.pos
  builtin : later.builtin = earlier.builtin

/-- The later schema has more types and directives behind the earlier ones, which themselves grew at most. -/
structure Schema.Grows (earlier later : Schema) : Prop where
  types : StartsWith TypeDecl.Grows earlier.types later.types
  directives : StartsWith DirectiveDecl.Grows earlier.directives later.directives
  declaration : ∀ type, earlier.declaration = some type → ∃ type', later.declaration = some type' ∧ type.Grows type'

/-! ### Growth is a preorder -/

theorem DirectiveUse.Grows.refl (use : DirectiveUse) : use.Grows use := ⟨rfl, rfl, List.prefix_rfl⟩

theorem DirectiveUse.Grows.trans {a b c : DirectiveUse} (h : a.Grows b) (h' : b.Grows c) : a.Grows c :=
  ⟨h'.name.trans h.name, h'.pos.trans h.pos, h.args.trans h'.args⟩

theorem InputValue.Grows.refl (value : InputValue) : value.Grows value :=
  ⟨rfl, rfl, rfl, rfl, List.forall₂_same.2 fun use _ => .refl use, rfl⟩

theorem InputValue.Grows.trans {a b c : InputValue} (h : a.Grows b) (h' : b.Grows c) : a.Grows c where
  name := h'.name.trans h.name
  description := h'.description.trans h.description
  type := h'.type.trans h.type
  default := h'.default.trans h.default
  directives := forall₂_trans .trans h.directives h'.directives
  pos := h'.pos.trans h.pos

theorem FieldDef.Grows.refl (field : FieldDef) : field.Grows field where
  name := rfl
  description := rfl
  type := rfl
  args := List.forall₂_same.2 fun arg _ => .refl arg
  directives := List.forall₂_same.2 fun use _ => .refl use
  pos := rfl

theorem FieldDef.Grows.trans {a b c : FieldDef} (h : a.Grows b) (h' : b.Grows c) : a.Grows c where
  name := h'.name.trans h.name
  description := h'.description.trans h.description
  type := h'.type.trans h.type
  args := forall₂_trans .trans h.args h'.args
  directives := forall₂_trans .trans h.directives h'.directives
  pos := h'.pos.trans h.pos

theorem EnumValue.Grows.refl (value : EnumValue) : value.Grows value :=
  ⟨rfl, rfl, List.forall₂_same.2 fun use _ => .refl use, rfl⟩

theorem EnumValue.Grows.trans {a b c : EnumValue} (h : a.Grows b) (h' : b.Grows c) : a.Grows c where
  name := h'.name.trans h.name
  description := h'.description.trans h.description
  directives := forall₂_trans .trans h.directives h'.directives
  pos := h'.pos.trans h.pos

theorem ObjectBody.Grows.refl (body : ObjectBody) : body.Grows body := ⟨List.prefix_rfl, .refl .refl body.fields⟩

theorem ObjectBody.Grows.trans {a b c : ObjectBody} (h : a.Grows b) (h' : b.Grows c) : a.Grows c :=
  ⟨h.interfaces.trans h'.interfaces, h.fields.trans .trans h'.fields⟩

theorem SchemaRoots.Grows.refl (roots : SchemaRoots) : roots.Grows roots := ⟨.refl _, .refl _, .refl _⟩

theorem SchemaRoots.Grows.trans {a b c : SchemaRoots} (h : a.Grows b) (h' : b.Grows c) : a.Grows c :=
  ⟨h.query.trans h'.query, h.mutation.trans h'.mutation, h.subscription.trans h'.subscription⟩

theorem TypeBody.Grows.refl (body : TypeBody) : body.Grows body := by
  cases body with
  | scalar kind => exact .scalar kind
  | object body => exact .object (.refl body)
  | interface body => exact .interface (.refl body)
  | union members => exact .union List.prefix_rfl
  | enum values => exact .enum (.refl .refl values)
  | input fields => exact .input (.refl .refl fields)
  | schema roots => exact .schema (.refl roots)

theorem TypeBody.Grows.trans {a b c : TypeBody} (h : a.Grows b) (h' : b.Grows c) : a.Grows c := by
  cases h with
  | scalar kind => exact h'
  | object h => cases h' with | object h' => exact .object (h.trans h')
  | interface h => cases h' with | interface h' => exact .interface (h.trans h')
  | union h => cases h' with | union h' => exact .union (h.trans h')
  | enum h => cases h' with | enum h' => exact .enum (h.trans .trans h')
  | input h => cases h' with | input h' => exact .input (h.trans .trans h')
  | schema h => cases h' with | schema h' => exact .schema (h.trans h')

theorem TypeDecl.Grows.refl (type : TypeDecl) : type.Grows type where
  name := rfl
  description := .refl _
  directives := .refl .refl _
  pos := rfl
  builtin := rfl
  body := .refl _

theorem TypeDecl.Grows.trans {a b c : TypeDecl} (h : a.Grows b) (h' : b.Grows c) : a.Grows c where
  name := h'.name.trans h.name
  description := h.description.trans h'.description
  directives := h.directives.trans .trans h'.directives
  pos := h'.pos.trans h.pos
  builtin := h'.builtin.trans h.builtin
  body := h.body.trans h'.body

theorem DirectiveDecl.Grows.refl (decl : DirectiveDecl) : decl.Grows decl where
  name := rfl
  description := rfl
  args := List.forall₂_same.2 fun arg _ => .refl arg
  locations := rfl
  repeatable := rfl
  pos := rfl
  builtin := rfl

theorem DirectiveDecl.Grows.trans {a b c : DirectiveDecl} (h : a.Grows b) (h' : b.Grows c) : a.Grows c where
  name := h'.name.trans h.name
  description := h'.description.trans h.description
  args := forall₂_trans .trans h.args h'.args
  locations := h'.locations.trans h.locations
  repeatable := h'.repeatable.trans h.repeatable
  pos := h'.pos.trans h.pos
  builtin := h'.builtin.trans h.builtin

theorem Schema.Grows.refl (schema : Schema) : schema.Grows schema where
  types := .refl .refl _
  directives := .refl .refl _
  declaration := fun type htype => ⟨type, htype, .refl type⟩

theorem Schema.Grows.trans {a b c : Schema} (h : a.Grows b) (h' : b.Grows c) : a.Grows c where
  types := h.types.trans .trans h'.types
  directives := h.directives.trans .trans h'.directives
  declaration := fun type htype => by
    obtain ⟨type', htype', hgrows⟩ := h.declaration type htype
    obtain ⟨type'', htype'', hgrows'⟩ := h'.declaration type' htype'
    exact ⟨type'', htype'', hgrows.trans hgrows'⟩

/-! ### Extensions -/

theorem prefix_addMembers {α : Type} [HasName α] (more : List α) :
    ∀ members : List α, members <+: (addMembers members more).1 := by
  induction more with
  | nil => exact fun _ => List.prefix_rfl
  | cons a rest ih =>
    intro members
    unfold addMembers
    split
    · exact List.prefix_rfl
    · exact (List.prefix_append members [a]).trans (ih _)

theorem prefix_addReferences (more : List TypeRef) :
    ∀ members : List TypeRef, members <+: (addReferences members more).1 := by
  induction more with
  | nil => exact fun _ => List.prefix_rfl
  | cons a rest ih =>
    intro members
    unfold addReferences
    split
    · exact List.prefix_rfl
    · exact (List.prefix_append members [a]).trans (ih _)

theorem prefix_addInterfaces (more : List TypeRef) :
    ∀ interfaces : List TypeRef, interfaces <+: addInterfaces interfaces more := by
  induction more with
  | nil => exact fun _ => List.prefix_rfl
  | cons a rest ih =>
    intro interfaces
    unfold addInterfaces
    split
    · exact ih interfaces
    · exact (List.prefix_append interfaces [a]).trans (ih _)

theorem SchemaRoots.addRoots_grows (roots more : SchemaRoots) : roots.Grows (addRoots roots more).1 := by
  obtain ⟨query, mutation, subscription, heq⟩ := Schema.addRoots_eq roots more
  rw [heq]
  exact ⟨.orElse _ _, .orElse _ _, .orElse _ _⟩

theorem ObjectBody.extend_grows (body more : ObjectBody) : body.Grows (body.extend more).1 :=
  ⟨prefix_addInterfaces _ _, .of_prefixed .refl (prefix_addMembers _ _)⟩

theorem TypeBody.extend_grows (body more : TypeBody) : body.Grows (body.extend more).1 := by
  unfold TypeBody.extend
  split
  · exact .object (ObjectBody.extend_grows _ _)
  · exact .interface (ObjectBody.extend_grows _ _)
  · exact .union (prefix_addReferences _ _)
  · exact .enum (.of_prefixed .refl (prefix_addMembers _ _))
  · exact .input (.of_prefixed .refl (prefix_addMembers _ _))
  · exact .schema (SchemaRoots.addRoots_grows _ _)
  · exact .refl _

theorem TypeDecl.extend_grows (type more : TypeDecl) : type.Grows (type.extend more).1 := by
  unfold TypeDecl.extend
  split
  · exact
      { name := rfl
        description := .orElse _ _
        directives := .of_prefixed .refl (List.prefix_append _ _)
        pos := rfl
        builtin := rfl
        body := TypeBody.extend_grows _ _ }
  · exact .refl type

namespace Schema

variable {schema next : Schema} {declarations : List Declaration}

/-! ### Assembling -/

theorem insert_grows (schema : Schema) (d : Declaration) : schema.Grows (schema.insert d).1 := by
  have htypes : StartsWith TypeDecl.Grows schema.types schema.types := .refl .refl _
  have hdirectives : StartsWith DirectiveDecl.Grows schema.directives schema.directives := .refl .refl _
  cases d with
  | type type =>
    show schema.Grows (schema.insertType type).1
    unfold insertType
    split
    · split
      · exact .refl schema
      · next hnone => exact ⟨htypes, hdirectives, fun type htype => absurd (htype ▸ rfl) hnone⟩
    · split
      · exact .refl schema
      · exact ⟨.of_prefixed .refl (List.prefix_append _ _), hdirectives, (Grows.refl schema).declaration⟩
  | directive decl =>
    show schema.Grows (schema.insertDirective decl).1
    unfold insertDirective
    split
    · exact .refl schema
    · exact ⟨htypes, .of_prefixed .refl (List.prefix_append _ _), (Grows.refl schema).declaration⟩
  | extension more => exact .refl schema

/-- What is extended may be replaced by what it grew to. -/
theorem replace_grows {more type type' : TypeDecl} (h : schema.extended? more = some type) (hgrows : type.Grows type') :
    schema.Grows (schema.replace more type') := by
  unfold extended? at h
  unfold replace
  split
  · next hmore =>
    rw [hmore] at h
    refine ⟨.refl .refl _, .refl .refl _, fun other hother => ?_⟩
    obtain rfl : type = other := Option.some.inj (h.symm.trans hother)
    exact ⟨type', rfl, hgrows⟩
  · next hmore =>
    have htype : schema.type? more.name = some type := by
      split at h
      · exact absurd ‹_› (hmore _)
      · exact h
    have hname : type'.name = more.name := hgrows.name.trans (Members.name_of_get? htype)
    refine ⟨.put .refl ?_ hgrows, .refl .refl _, (Grows.refl schema).declaration⟩
    show schema.type? type'.name = some type
    rw [hname, htype]

theorem extend_grows (schema : Schema) (d : Declaration) : schema.Grows (schema.extend d).1 := by
  cases d with
  | type type => exact .refl schema
  | directive decl => exact .refl schema
  | extension more =>
    unfold Schema.extend
    dsimp only
    split
    · exact .refl schema
    · next type htype => exact replace_grows htype (TypeDecl.extend_grows type more)

theorem assemble_grows (schema : Schema) (declarations : List Declaration) :
    schema.Grows (schema.assemble declarations).1 :=
  assemble_induction (P := schema.Grows) (fun middle d _ h => h.trans (middle.insert_grows d))
    (fun middle d _ h => h.trans (middle.extend_grows d)) (.refl schema)

end Schema

/-! ### Resolving references -/

theorem InputValue.Grows.resolved {a b : InputValue} (h : a.Grows b) : a.resolved.Grows b.resolved where
  name := h.name
  description := h.description
  type := congrArg TypeRef.resolved h.type
  default := h.default
  directives := h.directives
  pos := h.pos

theorem FieldDef.Grows.resolved {a b : FieldDef} (h : a.Grows b) : a.resolved.Grows b.resolved where
  name := h.name
  description := h.description
  type := congrArg TypeRef.resolved h.type
  args := forall₂_map_map (fun _ _ => InputValue.Grows.resolved) h.args
  directives := h.directives
  pos := h.pos

theorem ObjectBody.Grows.resolved {a b : ObjectBody} (h : a.Grows b) : a.resolved.Grows b.resolved :=
  ⟨h.interfaces.map _, h.fields.map fun _ _ => FieldDef.Grows.resolved⟩

theorem TypeBody.Grows.resolved {a b : TypeBody} (h : a.Grows b) : a.resolved.Grows b.resolved := by
  cases h with
  | scalar kind => exact .scalar kind
  | object h => exact .object h.resolved
  | interface h => exact .interface h.resolved
  | union h => exact .union (h.map _)
  | enum h => exact .enum h
  | input h => exact .input (h.map fun _ _ => InputValue.Grows.resolved)
  | schema h => exact .schema ⟨h.query.map _, h.mutation.map _, h.subscription.map _⟩

theorem TypeDecl.Grows.resolved {a b : TypeDecl} (h : a.Grows b) : a.resolved.Grows b.resolved where
  name := h.name
  description := h.description
  directives := h.directives
  pos := h.pos
  builtin := h.builtin
  body := h.body.resolved

theorem DirectiveDecl.Grows.resolved {a b : DirectiveDecl} (h : a.Grows b) : a.resolved.Grows b.resolved where
  name := h.name
  description := h.description
  args := forall₂_map_map (fun _ _ => InputValue.Grows.resolved) h.args
  locations := h.locations
  repeatable := h.repeatable
  pos := h.pos
  builtin := h.builtin

theorem Schema.Grows.resolved {a b : Schema} (h : a.Grows b) : a.resolved.Grows b.resolved where
  types := h.types.map fun _ _ => TypeDecl.Grows.resolved
  directives := h.directives.map fun _ _ => DirectiveDecl.Grows.resolved
  declaration := fun type htype => by
    obtain ⟨original, horiginal, rfl⟩ := Option.map_eq_some_iff.1 htype
    obtain ⟨later, hlater, hgrows⟩ := h.declaration original horiginal
    exact ⟨later.resolved, by rw [Schema.resolved, hlater]; rfl, hgrows.resolved⟩

/-! ### Normal forms -/

namespace Coercion

variable (c : Coercion)

theorem normalUse_grows (allowVariables : Bool) (use : DirectiveUse) : use.Grows (c.normalUse allowVariables use) := by
  have hkey (args : List InputValue) (entry : String × Value) :
      (c.normalArgument allowVariables args entry).1 = entry.1 := by
    unfold normalArgument
    split
    · split <;> rfl
    · rfl
  unfold normalUse
  split
  · next decl _ =>
    refine ⟨rfl, rfl, ?_⟩
    have hkeys : Entries.keys (use.args.map (c.normalArgument allowVariables decl.args)) = Entries.keys use.args :=
      map_map_congr (hkey decl.args) use.args
    rw [Entries.keys_append, hkeys]
    exact List.prefix_append _ _
  · exact .refl use

theorem normalInput_grows (value : InputValue) : value.Grows (c.normalInput value) where
  name := rfl
  description := rfl
  type := rfl
  default := Option.isSome_map
  directives := forall₂_map_self (c.normalUse_grows false) _
  pos := rfl

theorem normalField_grows (field : FieldDef) : field.Grows (c.normalField field) where
  name := rfl
  description := rfl
  type := rfl
  args := forall₂_map_self c.normalInput_grows _
  directives := forall₂_map_self (c.normalUse_grows false) _
  pos := rfl

theorem normalSymbol_grows (value : EnumValue) : value.Grows (c.normalSymbol value) :=
  ⟨rfl, rfl, forall₂_map_self (c.normalUse_grows false) _, rfl⟩

theorem normalBody_grows (body : TypeBody) : body.Grows (c.normalBody body) := by
  cases body with
  | scalar kind => exact .scalar kind
  | object body => exact .object ⟨List.prefix_rfl, .map_self c.normalField_grows _⟩
  | interface body => exact .interface ⟨List.prefix_rfl, .map_self c.normalField_grows _⟩
  | union members => exact .union List.prefix_rfl
  | enum values => exact .enum (.map_self c.normalSymbol_grows _)
  | input fields => exact .input (.map_self c.normalInput_grows _)
  | schema roots => exact .schema (.refl roots)

theorem normalType_grows (type : TypeDecl) : type.Grows (c.normalType type) where
  name := rfl
  description := .refl _
  directives := .map_self (c.normalUse_grows false) _
  pos := rfl
  builtin := rfl
  body := c.normalBody_grows _

theorem normalDirective_grows (decl : DirectiveDecl) : decl.Grows (c.normalDirective decl) where
  name := rfl
  description := rfl
  args := forall₂_map_self c.normalInput_grows _
  locations := rfl
  repeatable := rfl
  pos := rfl
  builtin := rfl

end Coercion

namespace Schema

variable {schema next : Schema} {declarations : List Declaration}

theorem normal_grows (schema : Schema) : schema.Grows schema.normal where
  types := .map_self (Coercion.normalType_grows _) _
  directives := .map_self (Coercion.normalDirective_grows _) _
  declaration := fun type htype =>
    ⟨Coercion.normalType { schema } type, by rw [Schema.normal, htype]; rfl, Coercion.normalType_grows _ type⟩

/-! ### Declaring -/

/-- Nothing is left to resolve in a schema that was resolved and then brought into normal form. -/
theorem resolved_normal_resolved (schema : Schema) : schema.resolved.normal.resolved = schema.resolved.normal :=
  resolved_rewritten (r := Coercion.normalizing { schema := schema.resolved }) resolved_resolved

/-- All references are resolved when declarations were added. -/
theorem declare?_resolved (h : schema.declare? declarations = .ok next) : next.resolved = next := by
  obtain ⟨-, -, -, rfl⟩ := declare?_eq_ok_iff.1 h
  exact resolved_normal_resolved _

/-- All references of a reachable schema are resolved. -/
theorem Reachable.resolved (h : schema.Reachable) : schema.resolved = schema := by
  cases h with
  | empty => rfl
  | declare _ _ hnext => exact declare?_resolved hnext

/-- A schema whose references are resolved grows by what is declared. -/
theorem declare?_grows (hresolved : schema.resolved = schema) (h : schema.declare? declarations = .ok next) :
    schema.Grows next := by
  obtain ⟨-, -, -, rfl⟩ := declare?_eq_ok_iff.1 h
  have hassembled := (schema.assemble_grows declarations).resolved
  rw [hresolved] at hassembled
  exact hassembled.trans (normal_grows _)

theorem Reachable.add (h : schema.Reachable) (hread : ∀ d ∈ declarations, d.IsRead) :
    (schema.add declarations).1.Reachable := by
  unfold Schema.add
  split
  · next hnext => exact .declare h hread hnext
  · exact h

/-- Adding declarations to a reachable schema changes nothing if errors are reported, and otherwise makes it grow. -/
theorem Reachable.add_grows (h : schema.Reachable) (declarations : List Declaration) :
    ((schema.add declarations).2 ≠ [] → (schema.add declarations).1 = schema) ∧
      ((schema.add declarations).2 = [] → schema.Grows (schema.add declarations).1) := by
  unfold Schema.add
  split
  · next hnext => exact ⟨fun herrors => absurd rfl herrors, fun _ => declare?_grows h.resolved hnext⟩
  · next errors _ => exact ⟨fun _ => rfl, fun _ => .refl schema⟩

private def days : Schema :=
  { types := [{ name := "Day", description := some "As in a calendar.", builtin := true, body := .scalar .string }] }

private def described (name : String) : Declaration :=
  .extension { name, description := some "From noon to noon.", body := .scalar .string }

private theorem days_reachable : days.Reachable := by
  have hdays : ({} : Schema).declare? [Builtin.scalar "Day" "As in a calendar." .string] = .ok days := by cbv
  exact .declare .empty (fun d hd => .inl ⟨_, _, _, List.mem_singleton.1 hd⟩) hdays

/-- What has a description may be described again, to no effect. What is not there cannot be extended. -/
theorem add_described_grows :
    days.Grows (days.add [described "Day"]).1 ∧ (days.add [described "Week"]).1 = days :=
  ⟨(days_reachable.add_grows [described "Day"]).2 (by cbv),
    (days_reachable.add_grows [described "Week"]).1 (by cbv; exact List.cons_ne_nil _ _)⟩

end Schema

end GraphQL
