import GraphQL.Proofs.Execution.Nodes
import GraphQL.Proofs.Schema.Inserted

/-!
# What the lists of introspection hold

When all is asked for, the lists that parts of a schema give hold the parts that are declared in them, in the order of
the declarations (`SchemaNode.resolve_declared`).
-/

namespace GraphQL

/-! ### Declared parts -/

/-- The fields that leave out what is deprecated unless all is asked for. -/
def Introspection.filtered : List String := ["fields", "args", "enumValues", "inputFields"]

/-- The parts that are declared in a type for a list of introspection, in the order of the declarations. -/
def TypeDecl.declared? (schema : Schema) (decl : TypeDecl) (field : String) : Option (List SchemaNode) :=
  match field, decl.body with
  | "fields", .object body | "fields", .interface body => some (body.fields.map .field)
  | "interfaces", .object body | "interfaces", .interface body => some (body.interfaces.map .type)
  | "possibleTypes", .union members => some (members.map fun member => .type (.named member.baseName))
  | "possibleTypes", .interface _ =>
    some ((schema.types.filter fun type =>
      type.isObject && (type.interfaces.map TypeRef.baseName).contains decl.name).map fun type =>
        .type (.named type.name))
  | "enumValues", .enum values => some (values.map .symbol)
  | "inputFields", .input fields => some (fields.map .input)
  | _, _ => none

namespace SchemaNode

/-- The parts that are declared in a part of a schema for a list of introspection, in the order of the declarations. -/
def declared? (schema : Schema) (node : SchemaNode) (field : String) : Option (List SchemaNode) :=
  match node, field with
  | .schema, "types" => some (schema.types.map fun type => .type (.named type.name))
  | .schema, "directives" => some (schema.directives.map .directive)
  | .type (.named name), field => (schema.type? name).bind (·.declared? schema field)
  | .field decl, "args" => some (decl.args.map .input)
  | .directive decl, "args" => some (decl.args.map .input)
  | _, _ => none

/-- The name under which a part of a schema is declared. The schema itself has none. -/
def name : SchemaNode → String
  | .schema => ""
  | .type ref => ref.baseName
  | .field decl => decl.name
  | .input value => value.name
  | .symbol value => value.name
  | .directive decl => decl.name

/-- The type that is declared for a field, an argument or an input field. -/
def declaredType? : SchemaNode → Option TypeRef
  | .field decl => some decl.type
  | .input value => some value.type
  | _ => none

end SchemaNode

/-! ### Possible types -/

namespace Schema

variable {schema : Schema}

/-- A type of a loaded schema implements the interfaces that it lists, and maybe itself. -/
theorem Loaded.implements_iff (h : schema.Loaded) {type : TypeDecl} (htype : type ∈ schema.types) {interface : String}
    (hne : interface ≠ type.name) :
    schema.implements type.name interface = true ↔ interface ∈ type.interfaces.map TypeRef.baseName := by
  have hget : Members.get? type.name schema.types = some type := h.reachable.orderly.types.get?_of_mem htype
  constructor
  · intro himplements
    obtain ⟨decl, hdecl, hlisted⟩ :=
      lists_of_transGen h.reachable.valid (transGen_of_implements himplements) hne
    cases hget.symm.trans hdecl
    exact hlisted
  · intro hlisted
    unfold implements
    rw [reaches_cons_of_some hget, List.contains_iff_mem.2 hlisted, Bool.true_or]

private theorem named_members {members : List TypeRef} (h : ∀ member ∈ members, schema.Refers member) :
    (members.filterMap schema.named?).map (fun type => SchemaNode.type (.named type.name)) =
      members.map fun member => .type (.named member.baseName) := by
  induction members with
  | nil => rfl
  | cons member rest ih =>
    obtain ⟨hmember, hrest⟩ := List.forall_mem_cons.1 h
    obtain ⟨type, htype⟩ := Option.isSome_iff_exists.1 (Members.get?_isSome.trans hmember.2)
    rw [List.filterMap_cons, show schema.named? member = some type from htype, List.map_cons, List.map_cons, ← ih hrest,
      ← Members.name_of_get? htype]
    rfl

/-- Objects implement the interfaces that they list, and no others. -/
private theorem object_implements (h : schema.Loaded) {type decl : TypeDecl} (htype : type ∈ schema.types)
    (hdecl : schema.type? decl.name = some decl) {body : ObjectBody} (hbody : decl.body = .interface body) :
    (type.isObject && schema.implements type.name decl.name) =
      (type.isObject && (type.interfaces.map TypeRef.baseName).contains decl.name) := by
  cases hobject : type.isObject with
  | false => rfl
  | true =>
    -- a type implements itself without listing itself, but an interface is no object
    have hne : decl.name ≠ type.name := by
      intro hsame
      cases (h.reachable.orderly.types.get?_of_mem htype).symm.trans (hsame ▸ hdecl)
      simp [TypeDecl.isObject, hbody] at hobject
    rw [Bool.true_and, Bool.true_and, Bool.eq_iff_iff, h.implements_iff htype hne, List.contains_iff_mem]

/-- The possible types are the members of a union, and the object types that list an interface. -/
theorem Loaded.possibleTypes_declared (h : schema.Loaded) (hsound : schema.Sound) {decl : TypeDecl}
    (hdecl : schema.type? decl.name = some decl) {nodes : List SchemaNode}
    (hnodes : decl.declared? schema "possibleTypes" = some nodes) :
    decl.isAbstract = true ∧
      (schema.possibleTypes decl.name).map (fun type => .type (.named type.name)) = nodes := by
  unfold TypeDecl.declared? at hnodes
  unfold possibleTypes TypeDecl.isAbstract
  rw [hdecl, Option.map_some]
  cases hbody : decl.body with
  | union members =>
    have hmembers : ∀ member ∈ members, schema.Refers member := fun member hmember =>
      hsound.refers_body (Members.mem_of_get? hdecl) ⟨.object, member⟩ (by rw [hbody]; exact List.mem_map_of_mem hmember)
    simp only [hbody, Option.some.injEq] at hnodes
    exact ⟨rfl, hnodes ▸ named_members hmembers⟩
  | interface body =>
    simp only [hbody, Option.some.injEq] at hnodes
    refine ⟨rfl, ?_⟩
    rw [← hnodes]
    exact congrArg (List.map _) (List.filter_congr fun type htype => object_implements h htype hdecl hbody)
  | scalar _ | object _ | enum _ | input _ | schema _ => simp [hbody] at hnodes

end Schema

/-! ### Lists -/

namespace SchemaNode

variable {ω ε : Type} {schema : Schema}

theorem listed_all {β : Type} {args : Arguments} (h : args.bool? "includeDeprecated" = some true)
    (directives : β → List DirectiveUse) (elements : List β) : listed args directives elements = elements := by
  simp [listed, h]

/-- The node shows its own name. -/
def Named (schema : Schema) (node : SchemaNode) : Prop :=
  ∀ (ω ε : Type) (args : Arguments),
    (node.resolve schema "name" args : Except ExecutionFault (Data ω ε)) = .ok (.value (.string node.name))

theorem named_type {ref : TypeRef} (h : schema.Refers ref) (hname : ref.ownName?.isSome = true) :
    (SchemaNode.type ref).Named schema := by
  intro ω ε args
  obtain ⟨hresolved, hexists⟩ := h
  cases ref with
  | list _ | nonNull _ => cases hname
  | unresolved _ _ => cases hresolved
  | named name =>
    obtain ⟨decl, hdecl⟩ := Option.isSome_iff_exists.1 (Members.get?_isSome.trans hexists)
    have hnamed : schema.named? (.named name) = some decl := hdecl
    simp only [resolve, resolveType, hnamed, resolveDecl]
    rw [show decl.name = name from Members.name_of_get? hdecl]
    rfl

/-- The data lists the nodes, which are of the named type and show their names. -/
def Lists (schema : Schema) (type : String) (nodes : List SchemaNode) (data : Data ω ε) : Prop :=
  data = .list (nodes.map .node) ∧ ∀ node ∈ nodes, node.typeName = type ∧ node.Named schema

private theorem lists_nodes {β : Type} (make : β → SchemaNode) {elements : List β} {type : String}
    (h : ∀ b ∈ elements, (make b).typeName = type ∧ (make b).Named schema) :
    Lists schema type (elements.map make) (Data.nodes make elements : Data ω ε) := by
  refine ⟨?_, List.forall_mem_map.2 h⟩
  rw [Data.nodes, List.map_map]
  rfl

private theorem lists_types {types : List TypeDecl} (h : ∀ type ∈ types, type ∈ schema.types) :
    Lists schema "__Type" (types.map fun type => .type (.named type.name))
      (Data.nodes (fun type => .type (.named type.name)) types : Data ω ε) := by
  refine lists_nodes (fun type : TypeDecl => .type (.named type.name)) fun type htype => ⟨rfl, ?_⟩
  exact named_type (Schema.partOf_type (h type htype)) rfl

private theorem lists_inputs {args : Arguments} (h : args.bool? "includeDeprecated" = some true)
    (values : List InputValue) :
    Lists schema "__InputValue" (values.map .input) (inputs args values : Data ω ε) := by
  rw [inputs, listed_all h]
  exact lists_nodes .input fun value _ => ⟨rfl, fun _ _ _ => rfl⟩

/-- What is declared in a type is listed. -/
private theorem resolveDecl_declared (h : schema.Loaded) (hsound : schema.Sound) {decl : TypeDecl}
    (hdecl : schema.type? decl.name = some decl) {field : String} {nodes : List SchemaNode}
    (hnodes : decl.declared? schema field = some nodes) {args : Arguments}
    (hall : field ∈ Introspection.filtered → args.bool? "includeDeprecated" = some true) :
    ∃ (ref : TypeRef) (data : Data ω ε), Introspection.field? "__Type" field = some ref ∧
      resolveDecl schema decl field args = .ok data ∧ Lists schema ref.baseName nodes data := by
  have hmem : decl ∈ schema.types := Members.mem_of_get? hdecl
  have hfields {fields : List FieldDef} (hfields : decl.fields? = some fields)
      (hall : args.bool? "includeDeprecated" = some true) :
      ∃ (ref : TypeRef) (data : Data ω ε), Introspection.field? "__Type" "fields" = some ref ∧
        resolveDecl schema decl "fields" args = .ok data ∧ Lists schema ref.baseName (fields.map .field) data := by
    refine ⟨_, _, rfl, rfl, ?_⟩
    rw [hfields]
    dsimp only
    rw [listed_all hall]
    exact lists_nodes .field fun field _ => ⟨rfl, fun _ _ _ => rfl⟩
  have hinterfaces {body : ObjectBody} (hbody : decl.body = .object body ∨ decl.body = .interface body) :
      ∃ (ref : TypeRef) (data : Data ω ε), Introspection.field? "__Type" "interfaces" = some ref ∧
        resolveDecl schema decl "interfaces" args = .ok data ∧
        Lists schema ref.baseName (body.interfaces.map .type) data := by
    have huses (interface : TypeRef) (hinterface : interface ∈ body.interfaces) :
        ⟨.interface, interface⟩ ∈ decl.body.uses := by
      rcases hbody with hbody | hbody <;>
        exact hbody ▸ List.mem_append_left _ (List.mem_map_of_mem hinterface)
    have hlists : Lists schema "__Type" (body.interfaces.map .type)
        (Data.nodes .type body.interfaces : Data ω ε) := by
      refine lists_nodes .type fun interface hinterface => ⟨rfl, ?_⟩
      have huse := huses interface hinterface
      refine named_type (hsound.refers_body hmem _ huse) (h.namesInterfaces ⟨.interface, interface⟩ ?_ rfl)
      exact Schema.mem_uses_iff.2 (.inl ⟨decl, List.mem_append_left _ hmem, huse⟩)
    refine ⟨_, _, rfl, rfl, ?_⟩
    rcases hbody with hbody | hbody <;>
    · rw [hbody]
      exact hlists
  have hpossible (hnodes : decl.declared? schema "possibleTypes" = some nodes) :
      ∃ (ref : TypeRef) (data : Data ω ε), Introspection.field? "__Type" "possibleTypes" = some ref ∧
        resolveDecl schema decl "possibleTypes" args = .ok data ∧ Lists schema ref.baseName nodes data := by
    obtain ⟨habstract, hnodes⟩ := h.possibleTypes_declared hsound hdecl hnodes
    refine ⟨_, _, rfl, rfl, ?_⟩
    rw [if_pos habstract, ← hnodes]
    exact lists_types fun type htype => Schema.mem_possibleTypes htype
  unfold TypeDecl.declared? at hnodes
  split at hnodes <;> cases hnodes
  · next hbody => exact hfields (by rw [TypeDecl.fields?, hbody]) (hall (by simp [Introspection.filtered]))
  · next hbody => exact hfields (by rw [TypeDecl.fields?, hbody]) (hall (by simp [Introspection.filtered]))
  · next hbody => exact hinterfaces (.inl hbody)
  · next hbody => exact hinterfaces (.inr hbody)
  · next hbody => exact hpossible (by simp [TypeDecl.declared?, hbody])
  · next hbody => exact hpossible (by simp [TypeDecl.declared?, hbody])
  · next hbody =>
    refine ⟨_, _, rfl, rfl, ?_⟩
    rw [hbody]
    dsimp only
    rw [listed_all (hall (by simp [Introspection.filtered]))]
    exact lists_nodes .symbol fun value _ => ⟨rfl, fun _ _ _ => rfl⟩
  · next hbody =>
    refine ⟨_, _, rfl, rfl, ?_⟩
    rw [hbody]
    exact lists_inputs (hall (by simp [Introspection.filtered])) _

/-- When all is asked for, the lists of a part of a loaded schema hold what is declared in it, in the order of the
declarations. -/
theorem resolve_declared (h : schema.Loaded) (hsound : schema.Sound) {node : SchemaNode} {field : String}
    {nodes : List SchemaNode} (hnodes : node.declared? schema field = some nodes) {args : Arguments}
    (hall : field ∈ Introspection.filtered → args.bool? "includeDeprecated" = some true) :
    ∃ (ref : TypeRef) (data : Data ω ε), Introspection.field? node.typeName field = some ref ∧
      node.resolve schema field args = .ok data ∧ Lists schema ref.baseName nodes data := by
  unfold declared? at hnodes
  split at hnodes
  · cases hnodes
    exact ⟨_, _, rfl, rfl, lists_types fun type htype => htype⟩
  · cases hnodes
    exact ⟨_, _, rfl, rfl, lists_nodes .directive fun decl _ => ⟨rfl, fun _ _ _ => rfl⟩⟩
  · next name =>
    obtain ⟨decl, hdecl, hdeclared⟩ := Option.bind_eq_some_iff.1 hnodes
    obtain rfl : decl.name = name := Members.name_of_get? hdecl
    obtain ⟨ref, data, href, hdata, hlists⟩ := resolveDecl_declared h hsound hdecl hdeclared hall
    refine ⟨ref, data, href, ?_, hlists⟩
    unfold resolve resolveType
    dsimp only
    rw [show schema.named? (.named decl.name) = some decl from hdecl]
    exact hdata
  · cases hnodes
    exact ⟨_, _, rfl, rfl, lists_inputs (hall (by simp [Introspection.filtered])) _⟩
  · cases hnodes
    exact ⟨_, _, rfl, rfl, lists_inputs (hall (by simp [Introspection.filtered])) _⟩
  · cases hnodes

end SchemaNode

end GraphQL
