import GraphQL.Execution.Introspection
import GraphQL.Proofs.Schema.Directives
import GraphQL.Proofs.Schema.Introspection

/-!
# What the nodes of introspection give

Every built-in field of every part of a schema is resolved, to data of the type that the field has
(`SchemaNode.resolve_ofType`). What could get in the way are references to types that do not exist, and reasons and
addresses that are no texts. Neither is found in a schema that is loaded onto what is built in
(`Schema.sound_of_loads`).
-/

namespace GraphQL

/-! ### Sound schemas -/

namespace Schema

/-- The reference is to a type that exists. -/
def Refers (schema : Schema) (type : TypeRef) : Prop :=
  type.resolved = type ∧ schema.hasType type.baseName = true

/-- What introspection shows of the uses of directives are texts. -/
def Explained (uses : List DirectiveUse) : Prop :=
  ∀ entry ∈ Introspection.arguments, ∀ use, DirectiveUse.find? entry.1.1 uses = some use →
    ∀ v, use.arg? entry.1.2 = some v → v = .null ∨ ∃ text, v = .string text

/-- The schema is one whose parts can all be shown. -/
structure Sound (schema : Schema) : Prop where
  describes : schema.DescribesItself
  refers : ∀ use ∈ schema.uses, schema.Refers use.type
  explained : ∀ site ∈ schema.sites, Explained site.uses

variable {schema : Schema} {options : SchemaOptions}

/-- A literal that an argument accepts whose type is `String` is a text, or `null`. -/
private theorem text_of_accepts (hschema : schema.DescribesItself) {type : TypeRef}
    (htype : type = .named "String" ∨ type = .nonNull (.named "String")) {v : Value} (h : schema.Accepts type v) :
    v = .null ∨ ∃ text, v = .string text := by
  obtain ⟨hvar, w, hw⟩ := h
  have hnamed (v : Value) (given : Option (List InputValue → List (String × Except CoercionError Value))) :
      schema.coercion.coerceNamed v given "String" = ScalarKind.string.coerceIn v := by
    obtain ⟨decl, hdecl, hbody⟩ := hschema.scalars ("String", .string) (by simp [Introspection.scalars])
    unfold Coercion.coerceNamed
    rw [show schema.coercion.schema.type? "String" = some decl from hdecl]
    dsimp only
    rw [hbody]
  cases v with
  | null => exact .inl rfl
  | string text => exact .inr ⟨text, rfl⟩
  | var name => cases hvar
  | bool _ | int _ | float _ | enum _ | time _ | list _ | object _ =>
    rcases htype with rfl | rfl <;> simp [Coercion.coerceIn, Coercion.coerceAs, hnamed, ScalarKind.coerceIn] at hw

private theorem explained_of_usesFaults (hschema : schema.DescribesItself) {location : DirectiveLocation}
    {uses : List DirectiveUse} (h : schema.usesFaults location false [] uses = []) : Explained uses := by
  intro entry hentry use huse v hv
  obtain ⟨⟨earlier, hfaults⟩, -⟩ := once_of_usesFaults h use (List.mem_of_find?_eq_some huse)
  obtain ⟨decl, hdecl, -, -, -, hargs⟩ := useFaults_eq_nil_iff.1 hfaults
  obtain ⟨decl', hdecl', arg, harg, hname, htype⟩ := hschema.arguments entry hentry
  have huseName : use.name = entry.1.1 := by simpa using List.find?_some huse
  cases hdecl'.symm.trans (huseName ▸ hdecl)
  refine text_of_accepts hschema ?_ ((useArgumentFaults_eq_nil_iff.1 (hargs arg harg)).1 v (hname ▸ hv))
  rw [htype]
  simp only [Introspection.arguments, List.mem_cons, List.not_mem_nil, or_false] at hentry
  rcases hentry with rfl | rfl
  · exact .inl rfl
  · exact .inr rfl

/-- A schema that is loaded onto what is built in is sound. -/
theorem sound_of_loads (h : Relation.ReflTransGen Loads (.initial options) schema) : schema.Sound where
  describes := describesItself_of_loads h
  refers := fun use huse =>
    ⟨resolved_eq_self_iff.1 (loaded_of_loads h).reachable.resolved use huse,
      ((loaded_of_loads h).closed use huse).hasType⟩
  explained := fun site hsite => explained_of_usesFaults (describesItself_of_loads h)
    (usesFaults_of_faults (loaded_of_loads h).reachable.valid.faults site hsite)

end Schema

/-! ### Parts of a schema -/

/-- The argument or input field can be shown. -/
structure InputValue.PartOf (schema : Schema) (value : InputValue) : Prop where
  refers : schema.Refers value.type
  explained : Schema.Explained value.directives

/-- The node shows a part of the schema. -/
def SchemaNode.PartOf (schema : Schema) : SchemaNode → Prop
  | .schema => (schema.rootType? .query).isSome = true
  | .type ref => schema.Refers ref
  | .field decl =>
    schema.Refers decl.type ∧ Schema.Explained decl.directives ∧ ∀ arg ∈ decl.args, arg.PartOf schema
  | .input value => value.PartOf schema
  | .symbol value => Schema.Explained value.directives
  | .directive decl => ∀ arg ∈ decl.args, arg.PartOf schema

namespace Schema

variable {schema : Schema} {type : TypeDecl}

theorem partOf_type (h : type ∈ schema.types) : (SchemaNode.type (.named type.name)).PartOf schema :=
  ⟨rfl, Members.contains_iff.2 (List.mem_map_of_mem h)⟩

theorem mem_possibleTypes {abstract : String} (h : type ∈ schema.possibleTypes abstract) : type ∈ schema.types := by
  unfold possibleTypes at h
  split at h
  · obtain ⟨member, -, hmember⟩ := List.mem_filterMap.1 h
    exact Members.mem_of_get? hmember
  · exact List.mem_of_mem_filter h
  · cases h

theorem Sound.refers_body (h : schema.Sound) (htype : type ∈ schema.types) (use : TypeUse) (huse : use ∈ type.body.uses) :
    schema.Refers use.type :=
  h.refers use (mem_uses_iff.2 (.inl ⟨type, List.mem_append_left _ htype, huse⟩))

theorem Sound.explained_body (h : schema.Sound) (htype : type ∈ schema.types) (site : Site)
    (hsite : site ∈ type.body.sites) : Explained site.uses :=
  h.explained site (mem_sites_iff.2 (.inl ⟨type, List.mem_append_left _ htype, List.mem_cons_of_mem _ hsite⟩))

theorem Sound.explained_type (h : schema.Sound) (htype : type ∈ schema.types) : Explained type.directives :=
  h.explained _ (mem_sites_iff.2 (.inl ⟨type, List.mem_append_left _ htype, List.mem_cons_self⟩))

theorem Sound.partOf_field (h : schema.Sound) (htype : type ∈ schema.types) {fields : List FieldDef}
    (hfields : type.fields? = some fields) {field : FieldDef} (hfield : field ∈ fields) :
    (SchemaNode.field field).PartOf schema := by
  have huses : ∀ use ∈ field.uses, use ∈ type.body.uses := by
    intro use huse
    unfold TypeDecl.fields? at hfields
    split at hfields <;> cases hfields
    all_goals
      next hbody =>
      rw [hbody]
      exact List.mem_append_right _ (List.mem_flatMap.2 ⟨field, hfield, huse⟩)
  have hsites : ∀ site ∈ field.sites, site ∈ type.body.sites := by
    intro site hsite
    unfold TypeDecl.fields? at hfields
    split at hfields <;> cases hfields
    all_goals
      next hbody =>
      rw [hbody]
      exact List.mem_flatMap.2 ⟨field, hfield, hsite⟩
  have hsites := FieldDef.forall_sites_iff.1 fun site hsite => h.explained_body htype site (hsites site hsite)
  refine ⟨h.refers_body htype _ (huses _ List.mem_cons_self), hsites.1, fun arg harg => ⟨?_, hsites.2 arg harg⟩⟩
  exact h.refers_body htype arg.use (huses arg.use (List.mem_cons_of_mem _ (List.mem_map_of_mem harg)))

theorem Sound.partOf_inputField (h : schema.Sound) (htype : type ∈ schema.types) {fields : List InputValue}
    (hbody : type.body = .input fields) {value : InputValue} (hvalue : value ∈ fields) : value.PartOf schema where
  refers := h.refers_body htype value.use (by rw [hbody]; exact List.mem_map_of_mem hvalue)
  explained := h.explained_body htype (value.site .inputFieldDefinition) (by rw [hbody]; exact List.mem_map_of_mem hvalue)

theorem Sound.partOf_directive (h : schema.Sound) {decl : DirectiveDecl} (hdecl : decl ∈ schema.directives) :
    (SchemaNode.directive decl).PartOf schema := fun arg harg =>
  { refers := h.refers arg.use (mem_uses_iff.2 (.inr ⟨decl, hdecl, List.mem_map_of_mem harg⟩))
    explained := h.explained (arg.site .argumentDefinition)
      (mem_sites_iff.2 (.inr ⟨decl, hdecl, List.mem_map_of_mem harg⟩)) }

end Schema

/-! ### Data of a type -/

/-- The value is a leaf of introspection of the given type. -/
inductive Introspection.Leaf : String → Value → Prop
  | text (text : String) : Leaf "String" (.string text)
  | truth (b : Bool) : Leaf "Boolean" (.bool b)
  | symbol {entry : String × List String} (hentry : entry ∈ enums) {symbol : String} (hsymbol : symbol ∈ entry.2) :
    Leaf entry.1 (.enum symbol)

/-- No built-in field has the name of one that introspection adds. -/
theorem Introspection.not_added {type name : String} {ref : TypeRef} (h : Introspection.field? type name = some ref) :
    name ∉ ["__typename", "__schema", "__type"] := by
  have hall : ∀ entry ∈ Introspection.types, ∀ name ∈ ["__typename", "__schema", "__type"],
      name ∉ Entries.keys entry.2 := by decide
  obtain ⟨fields, hfields, href⟩ := Option.bind_eq_some_iff.1 h
  exact fun hadded =>
    hall _ (Entries.mem_of_get? hfields) name hadded (Entries.mem_keys_of_mem (Entries.mem_of_get? href))

namespace Schema.DescribesItself

variable {schema : Schema} (h : schema.DescribesItself)

include h

/-- The type of a node is declared, with its built-in fields. -/
theorem object (node : SchemaNode) : ∃ type body, schema.type? node.typeName = some type ∧ type.body = .object body ∧
    ∀ name ref, Introspection.field? node.typeName name = some ref →
      ∃ field, type.field? name = some field ∧ field.type = ref := by
  have hentry : ∃ fields, Entries.get? node.typeName Introspection.types = some fields := by
    cases node <;> exact ⟨_, rfl⟩
  obtain ⟨fields, hfields⟩ := hentry
  obtain ⟨type, body, htype, hbody, hall⟩ := h.objects _ (Entries.mem_of_get? hfields)
  refine ⟨type, body, htype, hbody, fun name ref href => hall name ref ?_⟩
  rw [Introspection.field?, hfields] at href
  exact href

/-- A leaf of introspection has a scalar or an enum as its type, and stays as it is when it is coerced. -/
theorem leaf {name : String} {v : Value} (hleaf : Introspection.Leaf name v) :
    ∃ type, schema.type? name = some type ∧ type.isLeaf = true ∧
      ∀ c : Coercion, c.schema = schema → c.coerceOutNamed name v = .ok v := by
  cases hleaf with
  | text text =>
    obtain ⟨type, htype, hbody⟩ := h.scalars ("String", .string) List.mem_cons_self
    refine ⟨type, htype, by rw [TypeDecl.isLeaf, hbody], ?_⟩
    rintro c rfl
    simp [Coercion.coerceOutNamed, Value.isNull, htype, hbody, ScalarKind.coerceOut]
  | truth b =>
    obtain ⟨type, htype, hbody⟩ := h.scalars ("Boolean", .boolean) (List.mem_cons_of_mem _ List.mem_cons_self)
    refine ⟨type, htype, by rw [TypeDecl.isLeaf, hbody], ?_⟩
    rintro c rfl
    simp [Coercion.coerceOutNamed, Value.isNull, htype, hbody, ScalarKind.coerceOut]
  | @symbol entry hentry symbol hsymbol =>
    obtain ⟨type, values, htype, hbody, hall⟩ := h.enums entry hentry
    refine ⟨type, htype, by rw [TypeDecl.isLeaf, hbody], ?_⟩
    rintro c rfl
    simp [Coercion.coerceOutNamed, Value.isNull, htype, hbody, Value.asText?, hall symbol hsymbol]

end Schema.DescribesItself

namespace Data

variable {ω ε : Type} {schema : Schema}

/-- The data is of the type: a part of the schema where an object is wanted, and a leaf where a leaf is. -/
def OfType (schema : Schema) : TypeRef → Data ω ε → Prop
  | .nonNull inner, data => data.isNull = false ∧ OfType schema inner data
  | .list item, data => data.isNull = true ∨ ∃ items, data = .list items ∧ ∀ data ∈ items, OfType schema item data
  | .named name, data | .unresolved name _, data =>
    data.isNull = true ∨ (∃ node, data = .node node ∧ node.typeName = name ∧ node.PartOf schema) ∨
      ∃ v, data = .value v ∧ Introspection.Leaf name v

theorem ofType_null {name : String} : (null : Data ω ε).OfType schema (.named name) := .inl rfl

theorem ofType_node (node : SchemaNode) (h : node.PartOf schema) :
    (Data.node node : Data ω ε).OfType schema (.named node.typeName) := .inr (.inl ⟨node, rfl, rfl, h⟩)

theorem ofType_leaf {name : String} {v : Value} (h : Introspection.Leaf name v) :
    (value v : Data ω ε).OfType schema (.named name) := .inr (.inr ⟨v, rfl, h⟩)

theorem ofType_text? (text : Option String) : (ofText? text : Data ω ε).OfType schema (.named "String") := by
  cases text with
  | none => exact ofType_null
  | some text => exact ofType_leaf (.text text)

theorem ofType_value? {v : Option Value} (h : ∀ w, v = some w → w = .null ∨ ∃ text, w = .string text) :
    (ofValue? v : Data ω ε).OfType schema (.named "String") := by
  cases v with
  | none => exact ofType_null
  | some w =>
    rcases h w rfl with rfl | ⟨text, rfl⟩
    · exact .inl rfl
    · exact ofType_leaf (.text text)

theorem ofType_nodes {β : Type} (make : β → SchemaNode) {elements : List β} {name : String}
    (h : ∀ b ∈ elements, (make b).typeName = name ∧ (make b).PartOf schema) :
    (nodes make elements : Data ω ε).OfType schema (.list (.nonNull (.named name))) := by
  refine .inr ⟨_, rfl, List.forall_mem_map.2 fun b hb => ⟨rfl, ?_⟩⟩
  obtain ⟨rfl, hpart⟩ := h b hb
  exact ofType_node _ hpart

/-- What is not `null` is of the type marked non-null, too. -/
theorem OfType.nonNull {type : TypeRef} {data : Data ω ε} (h : data.OfType schema type) (hnull : data.isNull = false) :
    data.OfType schema (.nonNull type) := ⟨hnull, h⟩

end Data

/-! ### Resolving the fields of nodes -/

namespace SchemaNode

variable {ω ε : Type} {schema : Schema}

/-- The field of an element is resolved to data of the field's type. -/
private theorem resolveElement_ofType {name field : String} {description : Option String} {uses : List DirectiveUse}
    (huses : Schema.Explained uses) (node : SchemaNode) {ref : TypeRef}
    (h : (field, ref) ∈ [("name", TypeRef.nonNull (.named "String")), ("description", .named "String"),
      ("isDeprecated", .nonNull (.named "Boolean")), ("deprecationReason", .named "String")]) :
    ∃ data : Data ω ε, resolveElement name description uses node field = .ok data ∧ data.OfType schema ref := by
  simp only [List.mem_cons, Prod.mk.injEq, List.not_mem_nil, or_false] at h
  rcases h with ⟨rfl, rfl⟩ | ⟨rfl, rfl⟩ | ⟨rfl, rfl⟩ | ⟨rfl, rfl⟩
  · exact ⟨_, rfl, (Data.ofType_leaf (.text name)).nonNull rfl⟩
  · exact ⟨_, rfl, Data.ofType_text? description⟩
  · exact ⟨_, rfl, (Data.ofType_leaf (.truth _)).nonNull rfl⟩
  · refine ⟨_, rfl, Data.ofType_value? fun v hv => ?_⟩
    obtain ⟨use, huse, rfl⟩ := Option.map_eq_some_iff.1 hv
    cases hreason : use.arg? "reason" with
    | none => exact .inl rfl
    | some v =>
      exact huses (("deprecated", "reason"), .named "String") (by simp [Introspection.arguments]) use huse v hreason

/-- All arguments or input fields are listed as parts of the schema. -/
private theorem inputs_ofType (args : Arguments) {values : List InputValue}
    (h : ∀ value ∈ values, value.PartOf schema) :
    (inputs args values : Data ω ε).OfType schema (.list (.nonNull (.named "__InputValue"))) :=
  Data.ofType_nodes .input fun value hvalue => ⟨rfl, h value (List.mem_of_mem_filter hvalue)⟩

private theorem root_ofType (kind : OperationKind) :
    (root schema kind : Data ω ε).OfType schema (.named "__Type") := by
  unfold root
  cases hroot : schema.rootType? kind with
  | none => exact Data.ofType_null
  | some type => exact Data.ofType_node (.type (.named type.name)) (Schema.partOf_type (Members.mem_of_get? hroot))

private theorem resolveSchema_ofType (hschema : schema.Sound) (hroot : (schema.rootType? .query).isSome = true)
    {field : String} {ref : TypeRef} (h : Introspection.field? "__Schema" field = some ref) :
    ∃ data : Data ω ε, resolveSchema schema field = .ok data ∧ data.OfType schema ref := by
  -- the table of introspection gives the cases: one for each field of the type, here and below
  have h := Entries.mem_of_get? (show Entries.get? field _ = some ref from h)
  simp only [List.mem_cons, Prod.mk.injEq, List.not_mem_nil, or_false] at h
  rcases h with ⟨rfl, rfl⟩ | ⟨rfl, rfl⟩ | ⟨rfl, rfl⟩ | ⟨rfl, rfl⟩ | ⟨rfl, rfl⟩ | ⟨rfl, rfl⟩
  · exact ⟨_, rfl, Data.ofType_text? _⟩
  · have htypes := @Data.ofType_nodes ω ε schema _ (fun type => .type (.named type.name)) schema.types "__Type"
      fun type htype => ⟨rfl, Schema.partOf_type htype⟩
    exact ⟨_, rfl, htypes.nonNull rfl⟩
  · obtain ⟨type, htype⟩ := Option.isSome_iff_exists.1 hroot
    refine ⟨_, rfl, (root_ofType .query).nonNull ?_⟩
    rw [root, htype]
    rfl
  · exact ⟨_, rfl, root_ofType .mutation⟩
  · exact ⟨_, rfl, root_ofType .subscription⟩
  · exact ⟨_, rfl, (Data.ofType_nodes .directive fun decl hdecl => ⟨rfl, hschema.partOf_directive hdecl⟩).nonNull rfl⟩

/-- Lists and non-null types have a kind and a type of their own inside, and nothing else. -/
private theorem resolveWrapper_ofType {kind : String} (hkind : kind = "LIST" ∨ kind = "NON_NULL") {inner : TypeRef}
    (hinner : schema.Refers inner) {field : String} {ref : TypeRef}
    (h : Introspection.field? "__Type" field = some ref) :
    ∃ data : Data ω ε, resolveWrapper kind inner field = .ok data ∧ data.OfType schema ref := by
  have h := Entries.mem_of_get? (show Entries.get? field _ = some ref from h)
  simp only [List.mem_cons, Prod.mk.injEq, List.not_mem_nil, or_false] at h
  rcases h with ⟨rfl, rfl⟩ | ⟨rfl, rfl⟩ | ⟨rfl, rfl⟩ | ⟨rfl, rfl⟩ | ⟨rfl, rfl⟩ | ⟨rfl, rfl⟩ | ⟨rfl, rfl⟩ | ⟨rfl, rfl⟩ |
    ⟨rfl, rfl⟩ | ⟨rfl, rfl⟩
  case inl =>
    have hsymbol : kind ∈ ["SCALAR", "OBJECT", "INTERFACE", "UNION", "ENUM", "INPUT_OBJECT", "LIST", "NON_NULL"] := by
      rcases hkind with rfl | rfl <;> simp
    exact ⟨_, rfl, (Data.ofType_leaf (.symbol List.mem_cons_self hsymbol)).nonNull rfl⟩
  all_goals first
    | exact ⟨_, rfl, .inl rfl⟩
    | exact ⟨_, rfl, Data.ofType_node (.type inner) hinner⟩

private theorem kindName_mem (body : TypeBody) :
    body.kindName ∈ ["SCALAR", "OBJECT", "INTERFACE", "UNION", "ENUM", "INPUT_OBJECT", "LIST", "NON_NULL"] := by
  cases body <;> simp [TypeBody.kindName]

private theorem interfaces_ofType (hschema : schema.Sound) {decl : TypeDecl} (hdecl : decl ∈ schema.types)
    {body : ObjectBody} (hbody : decl.body = .object body ∨ decl.body = .interface body) :
    (Data.nodes .type body.interfaces : Data ω ε).OfType schema (.list (.nonNull (.named "__Type"))) := by
  refine Data.ofType_nodes .type fun interface hinterface => ⟨rfl, ?_⟩
  refine hschema.refers_body hdecl ⟨.interface, interface⟩ ?_
  rcases hbody with hbody | hbody <;>
    exact hbody ▸ List.mem_append_left _ (List.mem_map_of_mem hinterface)

private theorem resolveDecl_ofType (hschema : schema.Sound) {decl : TypeDecl} (hdecl : decl ∈ schema.types)
    (args : Arguments) {field : String} {ref : TypeRef} (h : Introspection.field? "__Type" field = some ref) :
    ∃ data : Data ω ε, resolveDecl schema decl field args = .ok data ∧ data.OfType schema ref := by
  have h := Entries.mem_of_get? (show Entries.get? field _ = some ref from h)
  simp only [List.mem_cons, Prod.mk.injEq, List.not_mem_nil, or_false] at h
  rcases h with ⟨rfl, rfl⟩ | ⟨rfl, rfl⟩ | ⟨rfl, rfl⟩ | ⟨rfl, rfl⟩ | ⟨rfl, rfl⟩ | ⟨rfl, rfl⟩ | ⟨rfl, rfl⟩ | ⟨rfl, rfl⟩ |
    ⟨rfl, rfl⟩ | ⟨rfl, rfl⟩
  · exact ⟨_, rfl, (Data.ofType_leaf (.symbol List.mem_cons_self (kindName_mem decl.body))).nonNull rfl⟩
  · exact ⟨_, rfl, Data.ofType_leaf (.text decl.name)⟩
  · exact ⟨_, rfl, Data.ofType_text? decl.description⟩
  · refine ⟨_, rfl, Data.ofType_value? fun v hv => ?_⟩
    obtain ⟨use, huse, hv⟩ := Option.bind_eq_some_iff.1 hv
    exact hschema.explained_type hdecl (("specifiedBy", "url"), .nonNull (.named "String"))
      (by simp [Introspection.arguments]) use huse v hv
  · refine ⟨_, rfl, ?_⟩
    split
    · next fields hfields =>
      exact Data.ofType_nodes .field fun field hfield =>
        ⟨rfl, hschema.partOf_field hdecl hfields (List.mem_of_mem_filter hfield)⟩
    · exact .inl rfl
  · refine ⟨_, rfl, ?_⟩
    split
    · next body hbody => exact interfaces_ofType hschema hdecl (.inl hbody)
    · next body hbody => exact interfaces_ofType hschema hdecl (.inr hbody)
    · exact .inl rfl
  · refine ⟨_, rfl, ?_⟩
    split
    · refine Data.ofType_nodes (fun type : TypeDecl => .type (.named type.name)) fun type htype => ⟨rfl, ?_⟩
      exact Schema.partOf_type (Schema.mem_possibleTypes htype)
    · exact .inl rfl
  · refine ⟨_, rfl, ?_⟩
    split
    · next values hbody =>
      refine Data.ofType_nodes .symbol fun value hvalue => ⟨rfl, ?_⟩
      refine hschema.explained_body hdecl value.site ?_
      exact hbody ▸ List.mem_map_of_mem (List.mem_of_mem_filter hvalue)
    · exact .inl rfl
  · refine ⟨_, rfl, ?_⟩
    split
    · next fields hbody => exact inputs_ofType args fun value hvalue => hschema.partOf_inputField hdecl hbody hvalue
    · exact .inl rfl
  · exact ⟨_, rfl, .inl rfl⟩

private theorem resolveType_ofType (hschema : schema.Sound) {type : TypeRef} (htype : schema.Refers type)
    (args : Arguments) {field : String} {ref : TypeRef} (h : Introspection.field? "__Type" field = some ref) :
    ∃ data : Data ω ε, resolveType schema type field args = .ok data ∧ data.OfType schema ref := by
  obtain ⟨hresolved, hexists⟩ := htype
  cases type with
  | list item => exact resolveWrapper_ofType (.inl rfl) ⟨TypeRef.list.inj hresolved, hexists⟩ h
  | nonNull inner => exact resolveWrapper_ofType (.inr rfl) ⟨TypeRef.nonNull.inj hresolved, hexists⟩ h
  | unresolved name pos => cases hresolved
  | named name =>
    obtain ⟨decl, hdecl⟩ := Option.isSome_iff_exists.1 (Members.get?_isSome.trans hexists)
    obtain ⟨data, hdata, htype⟩ := resolveDecl_ofType hschema (Members.mem_of_get? hdecl) args h
    refine ⟨data, ?_, htype⟩
    unfold resolveType
    dsimp only
    rw [show schema.named? (.named name) = some decl from hdecl]
    exact hdata

/-- Every field of a part of a sound schema is resolved, to data of the type of the field. -/
theorem resolve_ofType (hschema : schema.Sound) {node : SchemaNode} (hnode : node.PartOf schema) (args : Arguments)
    {field : String} {ref : TypeRef} (h : Introspection.field? node.typeName field = some ref) :
    ∃ data : Data ω ε, node.resolve schema field args = .ok data ∧ data.OfType schema ref := by
  cases node with
  | schema => exact resolveSchema_ofType hschema hnode h
  | type type => exact resolveType_ofType hschema hnode args h
  | field decl =>
    obtain ⟨htype, huses, hargs⟩ := hnode
    have h := Entries.mem_of_get? (show Entries.get? field _ = some ref from h)
    unfold resolve
    dsimp only
    split
    · obtain rfl : ref = .nonNull (.list (.nonNull (.named "__InputValue"))) := by simpa using h
      exact ⟨_, rfl, (inputs_ofType args hargs).nonNull rfl⟩
    · obtain rfl : ref = .nonNull (.named "__Type") := by simpa using h
      exact ⟨_, rfl, (Data.ofType_node (.type decl.type) htype).nonNull rfl⟩
    · -- what is left of the table are the fields of every element
      next hnotArgs hnotType =>
      refine resolveElement_ofType huses (.field decl) ?_
      simpa [show field ≠ "args" from hnotArgs, show field ≠ "type" from hnotType] using h
  | input value =>
    have h := Entries.mem_of_get? (show Entries.get? field _ = some ref from h)
    unfold resolve
    dsimp only
    split
    · obtain rfl : ref = .nonNull (.named "__Type") := by simpa using h
      exact ⟨_, rfl, (Data.ofType_node (.type value.type) hnode.refers).nonNull rfl⟩
    · obtain rfl : ref = .named "String" := by simpa using h
      exact ⟨_, rfl, Data.ofType_text? _⟩
    · next hnotType hnotDefault =>
      refine resolveElement_ofType hnode.explained (.input value) ?_
      simpa [show field ≠ "type" from hnotType, show field ≠ "defaultValue" from hnotDefault] using h
  | symbol value => exact resolveElement_ofType hnode (.symbol value) (Entries.mem_of_get? h)
  | directive decl =>
    have h := Entries.mem_of_get? (show Entries.get? field _ = some ref from h)
    simp only [List.mem_cons, Prod.mk.injEq, List.not_mem_nil, or_false] at h
    rcases h with ⟨rfl, rfl⟩ | ⟨rfl, rfl⟩ | ⟨rfl, rfl⟩ | ⟨rfl, rfl⟩ | ⟨rfl, rfl⟩
    · exact ⟨_, rfl, (Data.ofType_leaf (.text decl.name)).nonNull rfl⟩
    · exact ⟨_, rfl, Data.ofType_text? decl.description⟩
    · refine ⟨_, rfl, rfl, .inr ⟨_, rfl, List.forall_mem_map.2 fun location _ => ?_⟩⟩
      refine (Data.ofType_leaf (.symbol (List.mem_cons_of_mem _ List.mem_cons_self) ?_)).nonNull rfl
      exact List.mem_map_of_mem ((by cases location <;> decide : location ∈ DirectiveLocation.all))
    · exact ⟨_, rfl, (inputs_ofType args hnode).nonNull rfl⟩
    · exact ⟨_, rfl, (Data.ofType_leaf (.truth _)).nonNull rfl⟩

end SchemaNode

end GraphQL
