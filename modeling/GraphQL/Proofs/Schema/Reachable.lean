import GraphQL.Proofs.Schema.Declaring
import GraphQL.Proofs.Schema.Reader
import GraphQL.Schema.Builtin

/-!
# Reachable schemas

The schemas that can be made: by declaring, in any number of steps, what is built in and what is read from schema texts.
The members of all their declarations are distinct (`Schema.Reachable.distinct`).
-/

namespace GraphQL

/-! ### Reachability -/

/-- The declaration is built in, or read from a schema text. -/
def Declaration.IsRead (d : Declaration) : Prop :=
  (∃ name description kind, d = Builtin.scalar name description kind) ∨
    ∃ (schema : Schema) (source : List UInt8) (declarations : List Declaration) (e : Declaration),
      schema.read? source = .ok declarations ∧ e ∈ declarations ∧ (d = e ∨ d = Builtin.marked e)

/-- The schema can be made by declaring what is built in or read. -/
inductive Schema.Reachable : Schema → Prop
  | empty : Reachable {}
  | declare {schema next : Schema} {declarations : List Declaration} (hschema : schema.Reachable)
      (hread : ∀ d ∈ declarations, d.IsRead) (h : schema.declare? declarations = .ok next) : Reachable next

/-! ### Schemas with distinct members -/

/-- No two members of a declaration of the schema have the same name. -/
structure Schema.Distinct (schema : Schema) : Prop where
  types : ∀ type ∈ schema.types, type.body.Distinct
  directives : ∀ decl ∈ schema.directives, Members.Distinct decl.args

theorem Declaration.IsRead.distinct {d : Declaration} (h : d.IsRead) : d.Distinct := by
  rcases h with ⟨name, description, kind, rfl⟩ | ⟨schema, source, declarations, e, hread, he, hd⟩
  · trivial
  · have hdistinct := Schema.read?_distinct hread e he
    rcases hd with rfl | rfl
    · exact hdistinct
    · cases e <;> exact hdistinct

/-! ### Extensions -/

private theorem addMembers_distinct {α : Type} [HasName α] {good : α → Prop} (more : List α) :
    ∀ members : List α, Members.Distinct members → (∀ a ∈ members, good a) → (∀ a ∈ more, good a) →
      Members.Distinct (addMembers members more).1 ∧ ∀ a ∈ (addMembers members more).1, good a := by
  induction more with
  | nil => exact fun members hdistinct hgood _ => ⟨hdistinct, hgood⟩
  | cons a rest ih =>
    intro members hdistinct hgood hmore
    unfold addMembers
    split
    · exact ⟨hdistinct, hgood⟩
    · next hnew =>
      refine ih _ (hdistinct.concat (Bool.not_eq_true _ ▸ hnew)) ?_ fun b hb => hmore b (List.mem_cons_of_mem _ hb)
      intro b hb
      rcases List.mem_append.1 hb with hb | hb
      · exact hgood b hb
      · rw [List.mem_singleton.1 hb]
        exact hmore a List.mem_cons_self

private theorem extend_distinct {body more : TypeBody} (hbody : body.Distinct) (hmore : more.Distinct) :
    (body.extend more).1.Distinct := by
  have htrue {α : Type} (members : List α) : ∀ a ∈ members, True := fun _ _ => trivial
  unfold TypeBody.extend
  split
  · exact addMembers_distinct _ _ hbody.1 hbody.2 hmore.2
  · exact addMembers_distinct _ _ hbody.1 hbody.2 hmore.2
  · trivial
  · exact (addMembers_distinct _ _ hbody (htrue _) (htrue _)).1
  · exact (addMembers_distinct _ _ hbody (htrue _) (htrue _)).1
  · trivial
  · exact hbody

private theorem typeExtend_distinct {type more : TypeDecl} (htype : type.body.Distinct) (hmore : more.body.Distinct) :
    (type.extend more).1.body.Distinct := by
  unfold TypeDecl.extend
  split
  · exact extend_distinct htype hmore
  · exact htype

/-! ### Declaring -/

namespace Schema

variable {schema : Schema}

private theorem Distinct.concatType (h : schema.Distinct) {type : TypeDecl} (htype : type.body.Distinct) :
    ({ schema with types := schema.types ++ [type] } : Schema).Distinct where
  types := fun t ht => by
    rcases List.mem_append.1 ht with ht | ht
    · exact h.types t ht
    · rw [List.mem_singleton.1 ht]
      exact htype
  directives := h.directives

private theorem Distinct.insert (h : schema.Distinct) {d : Declaration} (hd : d.Distinct) :
    (schema.insert d).1.Distinct := by
  cases d with
  | type type =>
    show (schema.insertType type).1.Distinct
    unfold insertType
    split
    · split
      · exact h
      · exact ⟨h.types, h.directives⟩
    · split
      · exact h
      · exact h.concatType hd
  | directive decl =>
    show (schema.insertDirective decl).1.Distinct
    unfold insertDirective
    split
    · exact h
    · refine ⟨h.types, fun e he => ?_⟩
      rcases List.mem_append.1 he with he | he
      · exact h.directives e he
      · rw [List.mem_singleton.1 he]
        exact hd
  | extension more => exact h

private theorem Distinct.extend (h : schema.Distinct) {d : Declaration} (hd : d.Distinct) :
    (schema.extend d).1.Distinct := by
  cases d with
  | type type => exact h
  | directive decl => exact h
  | extension more =>
    unfold Schema.extend
    dsimp only
    split
    · exact h
    · next type hextended =>
      unfold extended? at hextended
      unfold replace
      dsimp only
      split
      · exact ⟨h.types, h.directives⟩
      · next hkind =>
        refine ⟨fun t ht => ?_, h.directives⟩
        rcases Members.mem_put ht with rfl | ht
        · split at hextended
          · exact absurd ‹_› (hkind _)
          · exact typeExtend_distinct (h.types _ (Members.mem_of_get? hextended)) hd
        · exact h.types t ht

/-- Assembling declarations with distinct members gives such a schema. -/
theorem Distinct.assemble (h : schema.Distinct) {declarations : List Declaration}
    (hall : ∀ d ∈ declarations, d.Distinct) : (schema.assemble declarations).1.Distinct :=
  assemble_induction (P := Schema.Distinct) (fun _ d hd h => h.insert (hall d hd))
    (fun _ d hd h => h.extend (hall d hd)) h

theorem Distinct.resolved (h : schema.Distinct) : schema.resolved.Distinct := by
  have hargs {args : List InputValue} (h : Members.Distinct args) :
      Members.Distinct (args.map InputValue.resolved) := h.map fun _ => rfl
  have hobject {body : ObjectBody} (h : (TypeBody.object body).Distinct) :
      (TypeBody.object body.resolved).Distinct := by
    refine ⟨h.1.map fun _ => rfl, fun field hfield => ?_⟩
    obtain ⟨original, horiginal, rfl⟩ := List.mem_map.1 hfield
    exact hargs (h.2 original horiginal)
  constructor
  · intro type htype
    obtain ⟨original, horiginal, rfl⟩ := List.mem_map.1 htype
    have hbody := h.types original horiginal
    show original.body.resolved.Distinct
    revert hbody
    cases original.body with
    | object body => exact hobject
    | interface body => exact hobject
    | input fields => exact hargs
    | enum values => exact id
    | scalar _ | union _ | schema _ => exact id
  · intro decl hdecl
    obtain ⟨original, horiginal, rfl⟩ := List.mem_map.1 hdecl
    exact hargs (h.directives original horiginal)

theorem Distinct.rewritten (h : schema.Distinct) (r : Rewriting) : (schema.rewritten r).Distinct := by
  have hargs {args : List InputValue} (h : Members.Distinct args) : Members.Distinct (args.map r.input) :=
    h.map fun _ => rfl
  have hobject {body : ObjectBody} (h : (TypeBody.object body).Distinct) :
      (TypeBody.object { body with fields := body.fields.map r.field }).Distinct := by
    refine ⟨h.1.map fun _ => rfl, fun field hfield => ?_⟩
    obtain ⟨original, horiginal, rfl⟩ := List.mem_map.1 hfield
    exact hargs (h.2 original horiginal)
  constructor
  · intro type htype
    obtain ⟨original, horiginal, rfl⟩ := List.mem_map.1 htype
    have hbody := h.types original horiginal
    show (r.body original.body).Distinct
    revert hbody
    cases original.body with
    | object body => exact hobject
    | interface body => exact hobject
    | input fields => exact hargs
    | enum values => exact fun hbody => Members.Distinct.map hbody fun _ => rfl
    | scalar _ | union _ | schema _ => exact id
  · intro decl hdecl
    obtain ⟨original, horiginal, rfl⟩ := List.mem_map.1 hdecl
    exact hargs (h.directives original horiginal)

theorem Distinct.normal (h : schema.Distinct) : schema.normal.Distinct := h.rewritten (Coercion.normalizing { schema })

theorem Distinct.declare? (h : schema.Distinct) {declarations : List Declaration} (hall : ∀ d ∈ declarations, d.Distinct)
    {next : Schema} (hnext : schema.declare? declarations = .ok next) : next.Distinct := by
  obtain ⟨-, -, -, rfl⟩ := declare?_eq_ok_iff.1 hnext
  exact (h.assemble hall).resolved.normal

/-- The members of the declarations of a reachable schema are distinct. -/
theorem Reachable.distinct (h : schema.Reachable) : schema.Distinct := by
  induction h with
  | empty => exact ⟨fun type htype => absurd htype (by simp), fun decl hdecl => absurd hdecl (by simp)⟩
  | declare _ hread hnext ih => exact ih.declare? (fun d hd => (hread d hd).distinct) hnext

/-- What is built in is a scalar, or read against the scalars. -/
theorem mem_declarations {options : SchemaOptions} {d : Declaration} (h : d ∈ Builtin.declarations options) :
    (∃ name description kind, d = Builtin.scalar name description kind) ∨
      ∃ declarations e, (assemble {} (Builtin.scalars options)).1.read? Builtin.source.toUTF8.toList = .ok declarations ∧
        e ∈ declarations ∧ d = Builtin.marked e := by
  unfold Builtin.declarations at h
  dsimp only at h
  generalize (assemble {} (Builtin.scalars options)).1.read? Builtin.source.toUTF8.toList = result at h ⊢
  rcases List.mem_append.1 h with h | h
  · left
    simp only [Builtin.scalars, List.mem_append, List.mem_cons, List.not_mem_nil, or_false,
      List.mem_ite_nil_right] at h
    rcases h with ((rfl | rfl | rfl | rfl | rfl | rfl) | ⟨-, rfl⟩) | ⟨-, rfl⟩ <;> exact ⟨_, _, _, rfl⟩
  · right
    cases result with
    | error e => cases h
    | ok declarations =>
      obtain ⟨e, he, rfl⟩ := List.mem_map.1 h
      exact ⟨declarations, e, rfl, he, rfl⟩

private theorem declarations_isRead (options : SchemaOptions) : ∀ d ∈ Builtin.declarations options, d.IsRead := by
  intro d hd
  refine (mem_declarations hd).imp_right ?_
  rintro ⟨declarations, e, hread, he, rfl⟩
  exact ⟨_, _, declarations, e, hread, he, .inr rfl⟩

private theorem reachable_getD {result : Except (List SchemaError) Schema}
    (h : ∀ schema, result = .ok schema → schema.Reachable) : (result.toOption.getD {}).Reachable := by
  cases result with
  | error errors => exact .empty
  | ok schema => exact h schema rfl

theorem builtin_reachable (options : SchemaOptions) : (Builtin.schema options).Reachable :=
  reachable_getD fun _ hok => .declare .empty (declarations_isRead options) hok

/-- What applications start from is reachable. -/
theorem initial_reachable (options : SchemaOptions) : (Schema.initial options).Reachable := by
  unfold Schema.initial
  split
  · exact builtin_reachable {}
  · exact builtin_reachable options

end Schema

end GraphQL
