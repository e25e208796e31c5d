import GraphQL.Proofs.Execution.Selected
import GraphQL.Proofs.Response.Merging

/-!
# Data without repeated keys

The entries of an object are meant to have distinct keys. Resolvers that keep to this only give data that does, and so
does introspection of a schema that does (`SchemaNode.resolve_keyed`); then no object in a response has two entries with
the same key (`Scope.selected_keyed`).
-/

namespace GraphQL

/-! ### Data and schemas -/

/-- The arguments of the directives have no repeated keys. -/
def DirectiveUse.AllKeyed (uses : List DirectiveUse) : Prop :=
  ∀ use ∈ uses, ∀ name v, (name, v) ∈ use.args → v.Keyed

/-- The directives on a part of a schema, and on the arguments in it, have no repeated keys. -/
def SchemaNode.Keyed : SchemaNode → Prop
  | schema | type _ => True
  | field decl => DirectiveUse.AllKeyed decl.directives ∧ ∀ arg ∈ decl.args, DirectiveUse.AllKeyed arg.directives
  | input decl => DirectiveUse.AllKeyed decl.directives
  | symbol decl => DirectiveUse.AllKeyed decl.directives
  | directive decl => ∀ arg ∈ decl.args, DirectiveUse.AllKeyed arg.directives

/-- The fields or symbols of a type as introspection shows them. -/
def TypeDecl.parts (t : TypeDecl) : List SchemaNode :=
  match t.body with
  | .object body | .interface body => body.fields.map .field
  | .enum values => values.map .symbol
  | .input fields => fields.map .input
  | .scalar _ | .union _ | .schema _ => []

/-- No directive of the schema has an argument with repeated keys. -/
structure Schema.Keyed (schema : Schema) : Prop where
  types : ∀ decl ∈ schema.types, DirectiveUse.AllKeyed decl.directives ∧ ∀ part ∈ decl.parts, part.Keyed
  directives : ∀ decl ∈ schema.directives, (SchemaNode.directive decl).Keyed

/-- No value in the data has an object with repeated keys. -/
inductive Data.Keyed {ω ε : Type} : Data ω ε → Prop
  | null : Data.Keyed .null
  | value {v : Value} (h : v.Keyed) : Data.Keyed (.value v)
  | list {items : List (Data ω ε)} (h : ∀ data ∈ items, Data.Keyed data) : Data.Keyed (.list items)
  | object (o : ω) : Data.Keyed (.object o)
  | node {n : SchemaNode} (h : n.Keyed) : Data.Keyed (.node n)
  | endpoint (e : ε) : Data.Keyed (.endpoint e)

/-- The data of a service has no repeated keys, and resolvers add none. -/
structure Service.Keyed {ω ε α : Type} (service : Service ω ε α) : Prop where
  schema : service.schema.Keyed
  root : ∀ kind, (service.root kind).Keyed
  object : ∀ o head args runtime data, (service.host.resolve o head args runtime).1 = .ok data → data.Keyed
  items : ∀ o items data, service.host.items? o = some items → .ok data ∈ items → data.Keyed
  untyped : ∀ v head args data, v.Keyed → service.host.untyped.resolve v head args = .ok data → data.Keyed
  untypedItems : ∀ v items data, v.Keyed → service.host.untyped.items? v = some items → .ok data ∈ items → data.Keyed

namespace Value

theorem keyed_null : Keyed .null := .plain rfl rfl

theorem keyed_string (text : String) : Keyed (.string text) := .plain rfl rfl

end Value

namespace Data

variable {ω ε : Type}

theorem keyed_ofText? (text : Option String) : (Data.ofText? text : Data ω ε).Keyed := by
  cases text with
  | none => exact .null
  | some text => exact .value (Value.keyed_string text)

theorem keyed_ofValue? {v : Option Value} (h : ∀ w, v = some w → w.Keyed) : (Data.ofValue? v : Data ω ε).Keyed := by
  cases v with
  | none => exact .null
  | some v => exact .value (h v rfl)

theorem keyed_nodes {β : Type} {make : β → SchemaNode} {items : List β} (h : ∀ b ∈ items, (make b).Keyed) :
    (Data.nodes make items : Data ω ε).Keyed := by
  refine .list fun data hdata => ?_
  obtain ⟨b, hb, rfl⟩ := List.mem_map.1 hdata
  exact .node (h b hb)

theorem Keyed.raw {data : Data ω ε} (h : data.Keyed) : data.raw.Keyed := by
  induction h with
  | value h => exact h
  | @list items _ ih =>
    have hitems : ∀ more : List (Data ω ε), (∀ data ∈ more, data.raw.Keyed) → ∀ v ∈ rawItems more, v.Keyed := by
      intro more
      induction more with
      | nil => exact fun _ v hv => absurd hv (by simp [rawItems])
      | cons data rest ihr =>
        intro hmore v hv
        rw [rawItems] at hv
        rcases List.mem_cons.1 hv with rfl | hv
        · exact hmore data List.mem_cons_self
        · exact ihr (fun data hdata => hmore data (List.mem_cons_of_mem _ hdata)) v hv
    exact .list (hitems items ih)
  | null | object _ | node _ | endpoint _ => exact Value.keyed_null

end Data

/-! ### Resolving -/

namespace UntypedResolver

variable {ω ε : Type} {v : Value} {data : Data ω ε}

/-- The usual way to read plain values adds no repeated keys. -/
theorem plain_resolve_keyed {head : FieldHead} {args : Arguments} (hv : v.Keyed)
    (h : (plain : UntypedResolver ω ε).resolve v head args = .ok data) : data.Keyed := by
  have hentry : ∀ {entries : List (String × Value)} {w : Value}, (Value.object entries).Keyed →
      (Entries.get? head.name entries <|> Entries.get? (snakeCase head.name) entries) = some w → w.Keyed := by
    intro entries w hentries hw
    cases hentries with
    | plain hobject _ => cases hobject
    | object _ hentries =>
      cases hname : Entries.get? head.name entries with
      | some u =>
        rw [hname] at hw
        cases hw
        exact hentries _ w (Entries.mem_of_get? hname)
      | none =>
        rw [hname] at hw
        exact hentries _ w (Entries.mem_of_get? hw)
  have hread : ∀ result, v.readField head.name = .ok result → (result : Data ω ε).Keyed := by
    intro result hresult
    unfold Value.readField at hresult
    split at hresult
    · cases hresult
      exact Data.keyed_ofValue? fun w hw => hentry hv hw
    · cases hresult
      exact .null
    · cases hresult
  unfold plain at h
  dsimp only at h
  cases hresult : (v.readField head.name : Except ExecutionFault (Data ω ε)) with
  | error fault =>
    rw [hresult] at h
    cases h
  | ok result =>
    rw [hresult] at h
    cases h
    exact hread data hresult

theorem plain_items_keyed {items : List (Except Error (Data ω ε))} (hv : v.Keyed)
    (h : (plain : UntypedResolver ω ε).items? v = some items) (hdata : .ok data ∈ items) : data.Keyed := by
  obtain ⟨vs, hvs, rfl⟩ := Option.map_eq_some_iff.1 h
  obtain ⟨w, hw, heq⟩ := List.mem_map.1 hdata
  cases heq
  cases v with
  | list items =>
    cases hvs
    cases hv with
    | plain _ hlist => cases hlist
    | list hitems => exact .value (hitems w hw)
  | null | bool _ | int _ | float _ | string _ | enum _ | var _ | time _ | object _ => cases hvs

end UntypedResolver

/-! ### Introspection -/

namespace SchemaNode

variable {ω ε : Type} {schema : Schema} {args : Arguments} {name : String} {data : Data ω ε}

private theorem keyed_argument {uses : List DirectiveUse} (h : DirectiveUse.AllKeyed uses) {directive arg : String}
    {v : Value} (hv : (DirectiveUse.find? directive uses).bind (·.arg? arg) = some v) : v.Keyed := by
  obtain ⟨use, huse, harg⟩ := Option.bind_eq_some_iff.1 hv
  exact h use (List.mem_of_find?_eq_some huse) arg v (Entries.mem_of_get? harg)

private theorem keyed_deprecation {uses : List DirectiveUse} (h : DirectiveUse.AllKeyed uses) {v : Value}
    (hv : deprecation? uses = some v) : v.Keyed := by
  obtain ⟨use, huse, rfl⟩ := Option.map_eq_some_iff.1 hv
  cases harg : use.arg? "reason" with
  | none => exact Value.keyed_null
  | some v => exact h use (List.mem_of_find?_eq_some huse) "reason" v (Entries.mem_of_get? harg)

private theorem keyed_listed {β : Type} {make : β → SchemaNode} {directives : β → List DirectiveUse}
    {elements : List β} (h : ∀ b ∈ elements, (make b).Keyed) :
    (Data.nodes make (listed args directives elements) : Data ω ε).Keyed :=
  Data.keyed_nodes fun b hb => h b (List.mem_filter.1 hb).1

private theorem keyed_root (schema : Schema) (kind : OperationKind) : (root schema kind : Data ω ε).Keyed := by
  unfold root
  cases schema.rootType? kind with
  | none => exact .null
  | some decl => exact .node trivial

private theorem resolveSchema_keyed (hschema : schema.Keyed)
    (h : (resolveSchema schema name : Except ExecutionFault (Data ω ε)) = .ok data) : data.Keyed := by
  unfold resolveSchema at h
  split at h
  · cases h
    exact Data.keyed_ofText? _
  · cases h
    exact Data.keyed_nodes fun decl _ => trivial
  · cases h
    exact keyed_root schema .query
  · cases h
    exact keyed_root schema .mutation
  · cases h
    exact keyed_root schema .subscription
  · cases h
    exact Data.keyed_nodes hschema.directives
  · cases h

private theorem resolveWrapper_keyed {kind : String} {inner : TypeRef}
    (h : (resolveWrapper kind inner name : Except ExecutionFault (Data ω ε)) = .ok data) : data.Keyed := by
  unfold resolveWrapper at h
  split at h
  · cases h
    exact .value (.plain rfl rfl)
  · cases h
    exact .node trivial
  all_goals cases h
  all_goals exact .null

private theorem resolveDecl_keyed {decl : TypeDecl} (huses : DirectiveUse.AllKeyed decl.directives)
    (hparts : ∀ part ∈ decl.parts, part.Keyed)
    (h : (resolveDecl schema decl name args : Except ExecutionFault (Data ω ε)) = .ok data) : data.Keyed := by
  unfold TypeDecl.parts at hparts
  unfold resolveDecl TypeDecl.fields? at h
  split at h
  · cases h
    exact .value (.plain rfl rfl)
  · cases h
    exact .value (Value.keyed_string _)
  · cases h
    exact Data.keyed_ofText? _
  · cases h
    exact Data.keyed_ofValue? fun v hv => keyed_argument huses hv
  · cases h
    cases hbody : decl.body with
    | object body | interface body =>
      rw [hbody] at hparts
      exact keyed_listed fun field hfield => hparts _ (List.mem_map_of_mem hfield)
    | scalar _ | union _ | enum _ | input _ | schema _ => exact .null
  · cases h
    cases decl.body with
    | object body | interface body => exact Data.keyed_nodes fun _ _ => trivial
    | scalar _ | union _ | enum _ | input _ | schema _ => exact .null
  · cases h
    split
    · exact Data.keyed_nodes fun _ _ => trivial
    · exact .null
  · cases h
    cases hbody : decl.body with
    | enum values =>
      rw [hbody] at hparts
      exact keyed_listed fun symbol hsymbol => hparts _ (List.mem_map_of_mem hsymbol)
    | scalar _ | union _ | object _ | interface _ | input _ | schema _ => exact .null
  · cases h
    cases hbody : decl.body with
    | input fields =>
      rw [hbody] at hparts
      exact keyed_listed fun field hfield => hparts _ (List.mem_map_of_mem hfield)
    | scalar _ | union _ | object _ | interface _ | enum _ | schema _ => exact .null
  · cases h
    exact .null
  · cases h

private theorem resolveElement_keyed {own : String} {description : Option String} {uses : List DirectiveUse}
    {node : SchemaNode} (huses : DirectiveUse.AllKeyed uses)
    (h : (resolveElement own description uses node name : Except ExecutionFault (Data ω ε)) = .ok data) :
    data.Keyed := by
  unfold resolveElement at h
  split at h
  · cases h
    exact .value (Value.keyed_string _)
  · cases h
    exact Data.keyed_ofText? _
  · cases h
    exact .value (.plain rfl rfl)
  · cases h
    exact Data.keyed_ofValue? fun v hv => keyed_deprecation huses hv
  · cases h

/-- What introspection gives has no repeated keys. -/
theorem resolve_keyed (hschema : schema.Keyed) {node : SchemaNode} (hnode : node.Keyed)
    (h : (node.resolve schema name args : Except ExecutionFault (Data ω ε)) = .ok data) : data.Keyed := by
  unfold resolve at h
  cases node with
  | schema => exact resolveSchema_keyed hschema h
  | type ref =>
    dsimp only at h
    unfold resolveType at h
    split at h
    · exact resolveWrapper_keyed h
    · exact resolveWrapper_keyed h
    · split at h
      · next decl hdecl =>
        obtain ⟨huses, hparts⟩ := hschema.types decl (Members.mem_of_get? hdecl)
        exact resolveDecl_keyed huses hparts h
      · cases h
  | field decl =>
    dsimp only at h
    split at h
    · cases h
      exact keyed_listed hnode.2
    · cases h
      exact .node trivial
    · exact resolveElement_keyed hnode.1 h
  | input decl =>
    dsimp only at h
    split at h
    · cases h
      exact .node trivial
    · cases h
      exact Data.keyed_ofText? _
    · exact resolveElement_keyed hnode h
  | symbol decl => exact resolveElement_keyed hnode h
  | directive decl =>
    dsimp only at h
    split at h
    · cases h
      exact .value (Value.keyed_string _)
    · cases h
      exact Data.keyed_ofText? _
    · cases h
      refine .list fun data hdata => ?_
      obtain ⟨location, _, rfl⟩ := List.mem_map.1 hdata
      exact .value (.plain rfl rfl)
    · cases h
      exact keyed_listed hnode
    · cases h
      exact .value (.plain rfl rfl)
    · cases h

end SchemaNode

/-! ### Outlines -/

namespace Outline

variable {ω ε : Type} {object : TypeDecl → Data ω ε → Prop} {entries : TypeDecl → Data ω ε → List (String × Value)}
  {outline : Outline ω ε}

theorem All.fill_keyed (h : outline.All Value.Keyed object)
    (hentries : ∀ target data, object target data → (Value.object (entries target data)).Keyed) :
    (outline.fill entries).Keyed := by
  induction h with
  | value h => exact h
  | object h => exact hentries _ _ h
  | @list items h ih =>
    refine .list ?_
    induction items with
    | nil => exact fun v hv => absurd hv (by simp [fillItems])
    | cons item rest ihrest =>
      intro v hv
      rw [fillItems] at hv
      rcases List.mem_cons.1 hv with rfl | hv
      · exact ih item List.mem_cons_self
      · exact ihrest (fun item hitem => h item (List.mem_cons_of_mem _ hitem))
          (fun item hitem => ih item (List.mem_cons_of_mem _ hitem)) v hv

/-- An outline is filled to alike values if the objects in it are. -/
theorem All.fill_alike (h : outline.All Value.Keyed object) {entries' : TypeDecl → Data ω ε → List (String × Value)}
    (hentries : ∀ target data, object target data →
      (Value.object (entries target data)).Alike (.object (entries' target data))) :
    (outline.fill entries).Alike (outline.fill entries') := by
  cases h with
  | value h => exact h.alike_self
  | object h => exact hentries _ _ h
  | list _ => exact .plain rfl rfl

end Outline

theorem ScalarKind.coerceOut_keyed {kind : ScalarKind} {v w : Value} (h : kind.coerceOut v = .ok w) (hv : v.Keyed) :
    w.Keyed := by
  have hinteger {wide : Bool} {target : String} (h : coerceInteger wide target v = .ok w) : w.Keyed := by
    unfold coerceInteger at h
    grind [Value.Keyed, Value.isObject, Value.isList]
  unfold ScalarKind.coerceOut at h
  cases kind with
  | int => exact hinteger h
  | int64 => exact hinteger h
  | any =>
    cases h
    exact hv
  | float =>
    dsimp only [coerceFloat] at h
    grind [Value.Keyed, Value.isObject, Value.isList]
  | time =>
    dsimp only [coerceTime] at h
    grind [Value.Keyed, Value.isObject, Value.isList]
  | boolean | string | id =>
    dsimp only at h
    grind [Value.Keyed, Value.isObject, Value.isList]

namespace Scope

variable {ω ε α : Type} {scope : Scope ω ε α} {runtime : Runtime ε α} {data : Data ω ε} {depth : Nat}

private theorem coerceOutNamed_keyed {c : Coercion} {name : String} {v w : Value} (h : c.coerceOutNamed name v = .ok w)
    (hv : v.Keyed) : w.Keyed := by
  unfold Coercion.coerceOutNamed at h
  split at h
  · cases h
    exact Value.keyed_null
  · split at h
    · cases h
    · split at h
      · exact ScalarKind.coerceOut_keyed h hv
      · split at h
        · split at h
          · cases h
            exact .plain rfl rfl
          · cases h
        · cases h
      · cases h
        exact hv

private theorem completeLeaf_keyed (name : String) (h : data.Keyed) : (scope.completeLeaf name data).1.Keyed := by
  have hleaf : ∀ v, scope.leafValue name data = .ok v → v.Keyed := by
    intro v hv
    unfold leafValue at hv
    split at hv
    · cases hv
      exact h.raw
    · cases hv
      exact h.raw
    · cases hv
  unfold completeLeaf
  split
  · exact Value.keyed_null
  · next v hv =>
    split
    · next w hw => exact coerceOutNamed_keyed hw (hleaf v hv)
    · exact Value.keyed_null

private theorem items?_keyed (hservice : scope.service.Keyed) {type : String}
    {items : List (Except Error (Data ω ε))} (h : data.Keyed) (hitems : scope.items? type data = .ok (some items))
    {item : Data ω ε} (hitem : .ok item ∈ items) : item.Keyed := by
  unfold items? at hitems
  split at hitems
  · cases hitems
  · cases hitems
  · cases hitems
    cases h with
    | list h =>
      obtain ⟨data, hdata, heq⟩ := List.mem_map.1 hitem
      cases heq
      exact h _ hdata
  · cases hitems
    cases h with
    | value h =>
      obtain ⟨v, hv, heq⟩ := List.mem_map.1 hitem
      cases heq
      cases h with
      | plain _ hlist => cases hlist
      | list h => exact .value (h _ hv)
  · split at hitems
    · next found =>
      cases hitems
      cases h with
      | value h => exact hservice.untypedItems _ _ _ h found hitem
    · cases hitems
  · split at hitems
    · next found =>
      cases hitems
      exact hservice.items _ _ _ found hitem
    · cases hitems
  · cases hitems
  · cases hitems

private theorem outlineNamed_all (name : String) (h : data.Keyed) {type : TypeRef} (htype : type.baseName = name) :
    (scope.outlineNamed name data).All Value.Keyed fun target data =>
      scope.schema.MayHold type target ∧ data.Keyed := by
  subst htype
  unfold outlineNamed
  split
  · exact .value Value.keyed_null
  · cases hdecl : scope.schema.type? type.baseName with
    | none => exact .value Value.keyed_null
    | some decl =>
      dsimp only
      cases hbody : decl.body with
      | object body =>
        have hobject : decl.isObject = true := by simp [TypeDecl.isObject, hbody]
        exact .object ⟨⟨decl, hdecl, Schema.mayBe_self hobject hdecl⟩, h⟩
      | interface _ | union _ =>
        dsimp only
        split
        · exact .value Value.keyed_null
        · have habstract : decl.isAbstract = true := by simp [TypeDecl.isAbstract, hbody]
          exact .object ⟨⟨decl, hdecl, concreteType_mayBe habstract ‹_›⟩, h⟩
      | scalar _ | enum _ => exact .value (completeLeaf_keyed _ h)
      | input _ | schema _ => exact .value Value.keyed_null

private theorem outlineWithin_all (hservice : scope.service.Keyed) (type : TypeRef) :
    ∀ {data : Data ω ε}, data.Keyed → (scope.outlineWithin type data).All Value.Keyed fun target data =>
      scope.schema.MayHold type target ∧ data.Keyed := by
  induction type with
  | named name => exact fun h => outlineNamed_all name h rfl
  | unresolved name pos => exact fun h => outlineNamed_all name h rfl
  | nonNull inner ih => exact fun h => ih h
  | list item ih =>
    intro data h
    unfold outlineWithin
    split
    · exact .value Value.keyed_null
    · exact .value Value.keyed_null
    · next items hitems =>
      refine .list fun outline houtline => ?_
      obtain ⟨found, hfound, rfl⟩ := List.mem_map.1 houtline
      cases found with
      | ok data => exact ih (items?_keyed hservice h hitems hfound)
      | error e => exact .value Value.keyed_null

private theorem outline_all (hservice : scope.service.Keyed) (depth : Nat) (type : TypeRef) (h : data.Keyed) :
    (scope.outline depth type data).All Value.Keyed fun target data =>
      scope.schema.MayHold type target ∧ data.Keyed := by
  unfold outline
  split
  · exact .value h.raw
  · exact outlineWithin_all hservice type h

private theorem resolved?_keyed (hservice : scope.service.Keyed) (h : data.Keyed) {head : FieldHead} {args : Arguments}
    {result : Data ω ε} (hresult : scope.resolved? runtime data head args = some result) : result.Keyed := by
  have hok {r : Except Error (Data ω ε)} (hr : r.toOption = some result) : r = .ok result := by
    cases r with
    | error e => cases hr
    | ok data => exact congrArg Except.ok (Option.some.inj hr)
  unfold resolved? at hresult
  cases h with
  | null =>
    cases hresult
    exact .null
  | value h => exact hservice.untyped _ _ _ _ h (hok hresult)
  | list h => cases hresult
  | object o => exact hservice.object _ _ _ _ _ (hok hresult)
  | endpoint e => cases hresult
  | @node n h =>
    dsimp only at hresult
    cases hnode : n.resolve scope.schema head.name args with
    | error fault =>
      rw [hnode] at hresult
      cases hresult
    | ok data =>
      rw [hnode] at hresult
      cases hresult
      exact SchemaNode.resolve_keyed hservice.schema h hnode

private theorem introspection?_keyed {parent : TypeDecl} {head : FieldHead} {data : Data ω ε} {type : TypeRef}
    (h : scope.introspection? parent head = some (.ok (data, type))) : data.Keyed := by
  unfold introspection? at h
  split at h
  · cases h
  · split at h
    · cases h
      exact .node trivial
    · split at h
      · cases hnode : scope.namedNode head with
        | error fault => simp [hnode, Except.map] at h
        | ok node =>
          simp only [hnode, Except.map] at h
          cases h
          unfold namedNode at hnode
          split at hnode
          · cases hnode
            split
            · exact .node trivial
            · exact .null
          · cases hnode
          · cases hnode
      · cases h

/-- The value of a field is the same whatever is selected below it, or it is made of data by the declared type. -/
theorem fieldOutline_cases (hservice : scope.service.Keyed) {parent : TypeDecl} {head : FieldHead} (h : data.Keyed)
    {outline : Outline ω ε} (houtline : scope.fieldOutline runtime parent data depth head = some outline) :
    (∃ v : Value, v.Keyed ∧ outline = .value v) ∨
      ∃ (type : TypeRef) (resolved : Data ω ε), scope.fieldType? parent head = some type ∧ resolved.Keyed ∧
        outline = scope.outline depth type resolved := by
  unfold fieldOutline at houtline
  split at houtline
  · cases houtline
    exact .inl ⟨_, Value.keyed_string _, rfl⟩
  · next hname =>
    have hintrospection := introspection?_type scope parent hname
    split at houtline
    · cases houtline
      exact .inl ⟨_, Value.keyed_null, rfl⟩
    · next data' type heq =>
      rw [heq] at hintrospection
      cases houtline
      exact .inr ⟨type, data', hintrospection, introspection?_keyed heq, rfl⟩
    · next heq =>
      rw [heq] at hintrospection
      obtain ⟨decl, hdecl, rfl⟩ := Option.map_eq_some_iff.1 houtline
      rw [hdecl] at hintrospection
      unfold declaredOutline
      split
      · exact .inl ⟨_, Value.keyed_null, rfl⟩
      · split
        · exact .inl ⟨_, Value.keyed_null, rfl⟩
        · next resolved hresolved =>
          split
          · exact .inl ⟨_, Value.keyed_null, rfl⟩
          · exact .inr ⟨decl.type, _, hintrospection, resolved?_keyed hservice h hresolved, rfl⟩

/-- There may be objects of type `target` in the value of a field of an object of type `parent`. -/
def Below (scope : Scope ω ε α) (parent : TypeDecl) (head : FieldHead) (target : TypeDecl) : Prop :=
  ∃ type, scope.fieldType? parent head = some type ∧ scope.schema.MayHold type target

/-- Fields of data without repeated keys have values without repeated keys, in which objects are of the types that the
declared type allows. -/
theorem fieldOutline_all (hservice : scope.service.Keyed) {parent : TypeDecl} {head : FieldHead} (h : data.Keyed)
    {outline : Outline ω ε} (houtline : scope.fieldOutline runtime parent data depth head = some outline) :
    outline.All Value.Keyed fun target data => scope.Below parent head target ∧ data.Keyed := by
  rcases fieldOutline_cases hservice h houtline with ⟨v, hv, rfl⟩ | ⟨type, resolved, htype, hresolved, rfl⟩
  · exact .value hv
  · have hall := outline_all hservice depth type hresolved
    exact hall.mono fun target data hobject => ⟨⟨type, htype, hobject.1⟩, hobject.2⟩

/-- The declared type tells whether the value of a field is a list or an object. -/
theorem fieldOutline_listed? (hservice : scope.service.Keyed) {parent : TypeDecl} {head : FieldHead} (h : data.Keyed)
    {outline : Outline ω ε} (houtline : scope.fieldOutline runtime parent data depth head = some outline)
    {listed : Bool} (hlisted : outline.listed? = some listed) :
    ∃ type, scope.fieldType? parent head = some type ∧ type.isListed = listed := by
  rcases fieldOutline_cases hservice h houtline with ⟨v, hv, rfl⟩ | ⟨type, resolved, htype, hresolved, rfl⟩
  · cases hlisted
  · exact ⟨type, htype, outline_listed? hlisted⟩

/-! ### Selected entries -/

private theorem selected_keyed_of_below (hservice : scope.service.Keyed)
    (hbelow : ∀ (field : CollectedField) (target : TypeDecl) {data : Data ω ε}, data.Keyed →
      (Value.object (scope.selectedBelow runtime depth field target data)).Keyed)
    {parent : TypeDecl} (hdata : data.Keyed) {fields : List CollectedField} {key : String} {v : Value}
    (h : (key, v) ∈ scope.selected runtime parent data depth fields) : v.Keyed := by
  obtain ⟨field, _, hfield⟩ := List.mem_filterMap.1 h
  obtain ⟨outline, houtline, heq⟩ := Option.map_eq_some_iff.1 hfield
  cases heq
  exact (fieldOutline_all hservice hdata houtline).fill_keyed fun target data h => hbelow field target h.2

/-- An object in the value of a field has no repeated keys. -/
theorem selectedBelow_keyed (hservice : scope.service.Keyed) (depth : Nat) :
    ∀ (field : CollectedField) (target : TypeDecl) {data : Data ω ε}, data.Keyed →
      (Value.object (scope.selectedBelow runtime depth field target data)).Keyed := by
  induction depth with
  | zero => exact fun field target data _ => .object List.nodup_nil fun key v hv => absurd hv (by simp [selectedBelow])
  | succ depth ih =>
    intro field target data hdata
    rw [selectedBelow_succ]
    exact Value.keyed_mergeEntries fun key v hv => selected_keyed_of_below hservice ih hdata hv

/-- The entries that fields give are values without repeated keys. -/
theorem selected_keyed (hservice : scope.service.Keyed) {parent : TypeDecl} (hdata : data.Keyed)
    {fields : List CollectedField} {key : String} {v : Value}
    (h : (key, v) ∈ scope.selected runtime parent data depth fields) : v.Keyed :=
  selected_keyed_of_below hservice (selectedBelow_keyed hservice depth) hdata h

end Scope

end GraphQL
