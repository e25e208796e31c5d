import GraphQL.Proofs.Execution.Collected
import GraphQL.Proofs.Execution.Listed

/-!
# What introspection shows

`Scope.shown` is what a selection set shows of a part of a schema: an object with an entry for each selected field, as
far as the depth allows. Its lists hold what is declared, in the order of the declarations (`Scope.shown_declared`), and a
reference to a type can be told from its kind, its name and the types inside (`Scope.typeRef?_shown`).
-/

namespace GraphQL

/-! ### Data as values -/

namespace Data

variable {ω ε : Type}

mutual

/-- The value that data is shown as, where `below` shows parts of the schema. -/
def shown (below : SchemaNode → Value) : Data ω ε → Value
  | value v => v
  | list items => .list (shownItems below items)
  | node n => below n
  | _ => .null

/-- The values that items are shown as. -/
def shownItems (below : SchemaNode → Value) : List (Data ω ε) → List Value
  | [] => []
  | data :: rest => shown below data :: shownItems below rest

end

theorem shownItems_eq_map (below : SchemaNode → Value) (items : List (Data ω ε)) :
    shownItems below items = items.map (shown below) := by
  induction items with
  | nil => rfl
  | cons data rest ih => rw [shownItems, ih, List.map_cons]

theorem shown_of_isNull {below : SchemaNode → Value} {data : Data ω ε} (h : data.isNull = true) :
    data.shown below = .null := by
  cases data with
  | null => rfl
  | value v => exact Value.isNull_iff.1 h
  | list _ | object _ | node _ | endpoint _ => cases h

mutual

/-- Without depth, no part of the schema is shown. -/
theorem shown_null (data : Data ω ε) : data.shown (fun _ => .null) = data.raw := by
  cases data with
  | list items => exact congrArg Value.list (shownItems_null items)
  | null | value _ | object _ | node _ | endpoint _ => rfl

theorem shownItems_null (items : List (Data ω ε)) : shownItems (fun _ => .null) items = rawItems items := by
  cases items with
  | nil => rfl
  | cons data rest => rw [shownItems, rawItems, shown_null data, shownItems_null rest]

end

end Data

/-! ### Selection sets on parts of a schema -/

/-- The entries of fields that have the given values. -/
def CollectedField.entries (value : CollectedField → Value) (fields : List CollectedField) : List (String × Value) :=
  fields.map fun field => (field.key, value field)

namespace Scope

variable {ω ε α : Type}

/-- The fields that a selection set selects on objects of the named type. -/
def fieldsOn (scope : Scope ω ε α) (type : String) (left : List Fragment) (selections : List Selection) :
    List CollectedField :=
  match scope.schema.type? type with
  | some decl => scope.collected decl left selections
  | none => []

/-- The declaration of a field of the named type. -/
def declOn? (scope : Scope ω ε α) (type field : String) : Option FieldDef :=
  (scope.schema.type? type).bind (·.field? field)

/-- The arguments that a field gets on objects of the named type. -/
def argumentsOn (scope : Scope ω ε α) (type : String) (head : FieldHead) : Arguments :=
  match scope.declOn? type head.name with
  | some decl => (scope.arguments decl (ArgumentPlan.of decl head.args).order).toOption.getD []
  | none => []

/-- What a field shows of a part of the schema, where `below` shows the parts inside. -/
def shownField (scope : Scope ω ε α) (below : SchemaNode → Value) (node : SchemaNode) (head : FieldHead) : Value :=
  if head.name = "__typename" then .string node.typeName
  else
    match (node.resolve scope.schema head.name (scope.argumentsOn node.typeName head) :
        Except ExecutionFault (Data ω ε)) with
    | .ok data => data.shown below
    | .error _ => .null

/-- What a selection set shows of a part of the schema at a depth. -/
def shown (scope : Scope ω ε α) : Nat → List Fragment → List Selection → SchemaNode → Value
  | 0, _, _, _ => .null
  | depth + 1, left, selections, node =>
    .object (CollectedField.entries
      (fun field => scope.shownField (scope.shown depth field.left field.children) node field.head)
      (scope.fieldsOn node.typeName left selections))

/-- The arguments of a field are declared, those that are required are given, and what is given fits. -/
structure ValidArguments (scope : Scope ω ε α) (decl : FieldDef) (head : FieldHead) : Prop where
  declared : ∀ name ∈ Entries.keys head.args, Members.contains name decl.args = true
  given : ∀ arg ∈ decl.args, ∀ v, scope.given? (Entries.get? arg.name head.args) = some v →
    ∃ w, scope.coercion.coerceIn arg.type v = .ok w
  required : ∀ arg ∈ decl.args, scope.given? (Entries.get? arg.name head.args) = none → arg.isRequired = false

/-- The selection set asks for built-in fields of an object type of introspection only, with valid arguments and under
keys of their own, here and below. -/
inductive Asks (scope : Scope ω ε α) : String → List Fragment → List Selection → Prop
  | intro {type : String} {left : List Fragment} {selections : List Selection}
      (keys : ((scope.fieldsOn type left selections).map CollectedField.key).Nodup)
      (fields : ∀ field ∈ scope.fieldsOn type left selections, field.head.name = "__typename" ∨
        (Introspection.field? type field.head.name).isSome = true ∧
          ∀ decl, scope.declOn? type field.head.name = some decl → scope.ValidArguments decl field.head)
      (below : ∀ field ∈ scope.fieldsOn type left selections, ∀ ref,
        Introspection.field? type field.head.name = some ref → Asks scope ref.baseName field.left field.children) :
      Asks scope type left selections

/-- The name of the type that a field of the root of queries asks for. -/
def typeAsked? (scope : Scope ω ε α) (head : FieldHead) : Option String :=
  match (Entries.get? "name" head.args).map (scope.coercion.coerceIn (.nonNull (.named "String"))) with
  | some (.ok (.string name)) => some name
  | _ => none

/-- What a field of the root of queries shows of the schema. -/
def shownRoot (scope : Scope ω ε α) (root : String) (field : CollectedField) : Value :=
  let below := scope.shown scope.service.maxDepth field.left field.children
  if field.head.name = "__typename" then .string root
  else if field.head.name = "__schema" then below .schema
  else
    match (scope.typeAsked? field.head).filter scope.schema.hasType with
    | some name => below (.type (.named name))
    | none => .null

/-- The selection set asks for nothing but introspection of the root of queries, with valid arguments and under keys of
their own. -/
structure AsksRoot (scope : Scope ω ε α) (root : TypeDecl) (left : List Fragment) (selections : List Selection) :
    Prop where
  keys : ((scope.collected root left selections).map CollectedField.key).Nodup
  fields : ∀ field ∈ scope.collected root left selections,
    field.head.name = "__typename" ∨
      field.head.name = "__schema" ∧ scope.Asks "__Schema" field.left field.children ∨
      field.head.name = "__type" ∧ (scope.typeAsked? field.head).isSome = true ∧
        scope.Asks "__Type" field.left field.children

/-! ### What is shown under a key -/

variable {scope : Scope ω ε α} {depth : Nat} {left : List Fragment} {selections : List Selection} {node : SchemaNode}
  {field : CollectedField}

theorem keys_entries (value : CollectedField → Value) (fields : List CollectedField) :
    Entries.keys (CollectedField.entries value fields) = fields.map CollectedField.key := by
  simp [Entries.keys, CollectedField.entries]

theorem Asks.nodup {type : String} (h : scope.Asks type left selections) :
    ((scope.fieldsOn type left selections).map CollectedField.key).Nodup := by
  cases h with
  | intro keys _ _ => exact keys

theorem Asks.inside {type : String} (h : scope.Asks type left selections)
    (hfield : field ∈ scope.fieldsOn type left selections) {ref : TypeRef}
    (href : Introspection.field? type field.head.name = some ref) :
    scope.Asks ref.baseName field.left field.children := by
  cases h with
  | intro _ _ below => exact below field hfield ref href

/-- Under the key of a field stands what the field shows. -/
theorem get?_shown (h : scope.Asks node.typeName left selections)
    (hfield : field ∈ scope.fieldsOn node.typeName left selections) :
    (scope.shown (depth + 1) left selections node).get? field.key =
      some (scope.shownField (scope.shown depth field.left field.children) node field.head) := by
  rw [shown, Value.get?]
  refine Entries.get?_of_mem ?_ (List.mem_map_of_mem hfield)
  rw [keys_entries]
  exact h.nodup

/-- Under the key of a built-in field stands the data that it is resolved to. -/
theorem get?_shown_of_resolve (h : scope.Asks node.typeName left selections)
    (hfield : field ∈ scope.fieldsOn node.typeName left selections) (hname : field.head.name ≠ "__typename")
    {data : Data ω ε}
    (hdata : node.resolve scope.schema field.head.name (scope.argumentsOn node.typeName field.head) = .ok data) :
    (scope.shown (depth + 1) left selections node).get? field.key =
      some (data.shown (scope.shown depth field.left field.children)) := by
  rw [get?_shown h hfield, shownField, if_neg hname, hdata]

/-- A list of introspection shows what is declared, in the order of the declarations. -/
theorem shown_declared (hloaded : scope.schema.Loaded) (hsound : scope.schema.Sound)
    (h : scope.Asks node.typeName left selections) (hfield : field ∈ scope.fieldsOn node.typeName left selections)
    (hall : field.head.name ∈ Introspection.filtered →
      (scope.argumentsOn node.typeName field.head).bool? "includeDeprecated" = some true)
    {nodes : List SchemaNode} (hnodes : node.declared? scope.schema field.head.name = some nodes) :
    (scope.shown (depth + 1) left selections node).get? field.key =
        some (.list (nodes.map (scope.shown depth field.left field.children))) ∧
      ∀ item ∈ nodes, scope.Asks item.typeName field.left field.children ∧ item.Named scope.schema := by
  obtain ⟨ref, data, href, hdata, rfl, hitems⟩ :=
    @SchemaNode.resolve_declared ω ε scope.schema hloaded hsound node _ _ hnodes _ hall
  have hnotTypename : field.head.name ≠ "__typename" := fun htypename =>
    Introspection.not_added href (htypename ▸ List.mem_cons_self)
  refine ⟨?_, fun item hitem => ?_⟩
  · rw [get?_shown_of_resolve h hfield hnotTypename hdata, Data.shown, Data.shownItems_eq_map, List.map_map]
    rfl
  · obtain ⟨htype, hnamed⟩ := hitems item hitem
    exact ⟨htype ▸ h.inside hfield href, hnamed⟩

/-- Under the key of its name, a part of the schema shows its name. -/
theorem shown_name (h : scope.Asks node.typeName left selections)
    (hfield : field ∈ scope.fieldsOn node.typeName left selections) (hname : field.head.name = "name")
    (hnamed : node.Named scope.schema) :
    (scope.shown (depth + 1) left selections node).get? field.key = some (.string node.name) := by
  have hdata := hnamed ω ε (scope.argumentsOn node.typeName field.head)
  rw [← hname] at hdata
  rw [get?_shown_of_resolve h hfield (by simp [hname]) hdata]
  rfl

/-! ### References to types -/

/-- The first field of the given name that is selected on types. -/
def onType? (scope : Scope ω ε α) (left : List Fragment) (selections : List Selection) (name : String) :
    Option CollectedField :=
  (scope.fieldsOn "__Type" left selections).find? (·.head.name == name)

/-- The reference to a type that can be told from what is shown of it: from its kind, its name, and the type inside. -/
def typeRef? (scope : Scope ω ε α) : Nat → List Fragment → List Selection → Value → Option TypeRef
  | 0, _, _, _ => none
  | depth + 1, left, selections, v =>
    let read (name : String) := (scope.onType? left selections name).bind fun field => v.get? field.key
    let inside := (scope.onType? left selections "ofType").bind fun field =>
      (v.get? field.key).bind (scope.typeRef? depth field.left field.children)
    match read "kind" with
    | some (.enum "LIST") => inside.map .list
    | some (.enum "NON_NULL") => inside.map .nonNull
    | some (.enum _) =>
      match read "name" with
      | some (.string name) => some (.named name)
      | _ => none
    | _ => none

/-- The selection set asks for the kind, and for the name or the type inside, as deep as the reference goes. -/
inductive Spells (scope : Scope ω ε α) : TypeRef → Nat → List Fragment → List Selection → Prop
  | named {name : String} {depth : Nat} {left : List Fragment} {selections : List Selection}
      (hkind : (scope.onType? left selections "kind").isSome = true)
      (hname : (scope.onType? left selections "name").isSome = true) :
      Spells scope (.named name) (depth + 1) left selections
  | list {item : TypeRef} {depth : Nat} {left : List Fragment} {selections : List Selection} {field : CollectedField}
      (hkind : (scope.onType? left selections "kind").isSome = true)
      (hfield : scope.onType? left selections "ofType" = some field)
      (h : Spells scope item depth field.left field.children) : Spells scope (.list item) (depth + 1) left selections
  | nonNull {inner : TypeRef} {depth : Nat} {left : List Fragment} {selections : List Selection}
      {field : CollectedField} (hkind : (scope.onType? left selections "kind").isSome = true)
      (hfield : scope.onType? left selections "ofType" = some field)
      (h : Spells scope inner depth field.left field.children) : Spells scope (.nonNull inner) (depth + 1) left selections

/-- Under the key of a field of a type stands the data that it is resolved to. -/
private theorem get?_onType {ref : TypeRef} (h : scope.Asks "__Type" left selections) {name : String}
    (hfield : scope.onType? left selections name = some field) (hname : name ≠ "__typename") {data : Data ω ε}
    (hdata : ∀ args, (SchemaNode.type ref).resolve scope.schema name args = .ok data) :
    (scope.shown (depth + 1) left selections (.type ref)).get? field.key =
      some (data.shown (scope.shown depth field.left field.children)) := by
  obtain rfl : field.head.name = name := by simpa using List.find?_some hfield
  exact @get?_shown_of_resolve ω ε α scope depth left selections (.type ref) field h
    (List.mem_of_find?_eq_some hfield) hname data (hdata _)

/-- A value that a type has can be read from what is shown of the type. -/
private theorem read_onType {ref : TypeRef} (h : scope.Asks "__Type" left selections) {name : String}
    (hsome : (scope.onType? left selections name).isSome = true) (hname : name ≠ "__typename") {v : Value}
    (hdata : ∀ args, ((SchemaNode.type ref).resolve scope.schema name args : Except ExecutionFault (Data ω ε)) =
      .ok (.value v)) :
    ((scope.onType? left selections name).bind fun field =>
      (scope.shown (depth + 1) left selections (.type ref)).get? field.key) = some v := by
  obtain ⟨field, hfield⟩ := Option.isSome_iff_exists.1 hsome
  rw [hfield, Option.bind_some, get?_onType h hfield hname hdata, Data.shown]

/-- The type inside can be told if the selection set for it tells it. -/
private theorem inside_onType {ref inner : TypeRef} (h : scope.Asks "__Type" left selections)
    (hfield : scope.onType? left selections "ofType" = some field)
    (hdata : ∀ args, ((SchemaNode.type ref).resolve scope.schema "ofType" args : Except ExecutionFault (Data ω ε)) =
      .ok (.node (.type inner)))
    (ih : scope.Asks "__Type" field.left field.children →
      scope.typeRef? depth field.left field.children (scope.shown depth field.left field.children (.type inner)) =
        some inner) :
    ((scope.onType? left selections "ofType").bind fun field =>
      ((scope.shown (depth + 1) left selections (.type ref)).get? field.key).bind
        (scope.typeRef? depth field.left field.children)) = some inner := by
  have hname : field.head.name = "ofType" := by simpa using List.find?_some hfield
  have htype : Introspection.field? "__Type" field.head.name = some (.named "__Type") := by
    rw [hname]
    rfl
  rw [hfield, Option.bind_some, get?_onType h hfield (by decide) hdata, Data.shown, Option.bind_some]
  exact ih (h.inside (List.mem_of_find?_eq_some hfield) htype)

/-- The reference to a type can be told from its kind, its name, and the types inside. -/
theorem typeRef?_shown {ref : TypeRef} (hspells : scope.Spells ref depth left selections)
    (h : scope.Asks "__Type" left selections) (href : scope.schema.Refers ref) :
    scope.typeRef? depth left selections (scope.shown depth left selections (.type ref)) = some ref := by
  induction hspells with
  | @named name depth left selections hkind hname =>
    obtain ⟨decl, hdecl⟩ := Option.isSome_iff_exists.1 (Members.get?_isSome.trans href.2)
    have hkindRead := @read_onType ω ε α scope depth left selections (.named name) h "kind" hkind (by decide)
      (.enum decl.body.kindName) fun args => by
        simp only [SchemaNode.resolve, SchemaNode.resolveType]
        rw [show scope.schema.named? (.named name) = some decl from hdecl]
        rfl
    have hnameRead := @read_onType ω ε α scope depth left selections (.named name) h "name" hname (by decide) _
      (SchemaNode.named_type href rfl ω ε)
    simp only [typeRef?, hkindRead, hnameRead]
    -- every kind of declaration is spelled differently from the wrappers
    cases decl.body <;> rfl
  | @list item depth left selections field hkind hfield _ ih =>
    have hkindRead := @read_onType ω ε α scope depth left selections (.list item) h "kind" hkind (by decide)
      (.enum "LIST") fun args => rfl
    have hinside := @inside_onType ω ε α scope depth left selections field (.list item) item h hfield (fun args => rfl)
      fun h => ih h ⟨TypeRef.list.inj href.1, href.2⟩
    simp only [typeRef?, hkindRead, hinside]
    rfl
  | @nonNull inner depth left selections field hkind hfield _ ih =>
    have hkindRead := @read_onType ω ε α scope depth left selections (.nonNull inner) h "kind" hkind (by decide)
      (.enum "NON_NULL") fun args => rfl
    have hinside := @inside_onType ω ε α scope depth left selections field (.nonNull inner) inner h hfield
      (fun args => rfl) fun h => ih h ⟨TypeRef.nonNull.inj href.1, href.2⟩
    simp only [typeRef?, hkindRead, hinside]
    rfl

/-- The type of a field or an argument is shown as the reference that is declared. -/
theorem shown_declaredType (h : scope.Asks node.typeName left selections)
    (hfield : field ∈ scope.fieldsOn node.typeName left selections) (hname : field.head.name = "type") {ref : TypeRef}
    (href : node.declaredType? = some ref) :
    (scope.shown (depth + 1) left selections node).get? field.key =
        some (scope.shown depth field.left field.children (.type ref)) ∧
      scope.Asks "__Type" field.left field.children := by
  have hdata : (node.resolve scope.schema field.head.name (scope.argumentsOn node.typeName field.head) :
      Except ExecutionFault (Data ω ε)) = .ok (.node (.type ref)) := by
    rw [hname]
    cases node <;> cases href <;> rfl
  have htype : Introspection.field? node.typeName field.head.name = some (.nonNull (.named "__Type")) := by
    rw [hname]
    cases node <;> cases href <;> rfl
  refine ⟨?_, h.inside hfield htype⟩
  rw [get?_shown_of_resolve h hfield (by simp [hname]) hdata]
  rfl

/-- What is shown of the parts of the schema is what is declared, wherever selection sets ask for it: the parts in lists
with their names, the types of fields and arguments, and what references to types are made of. -/
structure Faithful (scope : Scope ω ε α) : Prop where
  lists : ∀ depth left selections node, scope.Asks node.typeName left selections →
    ∀ field ∈ scope.fieldsOn node.typeName left selections,
      (field.head.name ∈ Introspection.filtered →
        (scope.argumentsOn node.typeName field.head).bool? "includeDeprecated" = some true) →
      ∀ nodes, node.declared? scope.schema field.head.name = some nodes →
        (scope.shown (depth + 1) left selections node).get? field.key =
            some (.list (nodes.map (scope.shown depth field.left field.children))) ∧
          ∀ item ∈ nodes, scope.Asks item.typeName field.left field.children ∧
            ∀ inner ∈ scope.fieldsOn item.typeName field.left field.children, inner.head.name = "name" → depth ≠ 0 →
              (scope.shown depth field.left field.children item).get? inner.key = some (.string item.name)
  types : ∀ depth left selections node, scope.Asks node.typeName left selections →
    ∀ field ∈ scope.fieldsOn node.typeName left selections, field.head.name = "type" →
      ∀ ref, node.declaredType? = some ref →
        (scope.shown (depth + 1) left selections node).get? field.key =
            some (scope.shown depth field.left field.children (.type ref)) ∧
          scope.Asks "__Type" field.left field.children
  declared : ∀ use ∈ scope.schema.uses, scope.schema.Refers use.type
  references : ∀ depth left selections, scope.Asks "__Type" left selections →
    ∀ ref, scope.schema.Refers ref → scope.Spells ref depth left selections →
      scope.typeRef? depth left selections (scope.shown depth left selections (.type ref)) = some ref

theorem faithful (hloaded : scope.schema.Loaded) (hsound : scope.schema.Sound) : scope.Faithful where
  lists := by
    intro depth left selections node h field hfield hall nodes hnodes
    obtain ⟨hlist, hitems⟩ := @shown_declared ω ε α scope depth _ _ _ _ hloaded hsound h hfield hall _ hnodes
    refine ⟨hlist, fun item hitem => ?_⟩
    obtain ⟨hasks, hnamed⟩ := hitems item hitem
    refine ⟨hasks, fun inner hinner hname hdepth => ?_⟩
    obtain ⟨depth, rfl⟩ := Nat.exists_eq_succ_of_ne_zero hdepth
    exact shown_name hasks hinner hname hnamed
  types := fun _ _ _ _ h _ hfield hname _ href => shown_declaredType h hfield hname href
  declared := hsound.refers
  references := fun _ _ _ h _ href hspells => typeRef?_shown hspells h href

end Scope

end GraphQL
