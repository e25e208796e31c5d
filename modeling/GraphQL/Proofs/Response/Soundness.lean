import GraphQL.Execution.Operation
import GraphQL.Proofs.Keyed
import GraphQL.Proofs.Response.Completion
import Mathlib

/-!
# Sound responses

The data of a response is `null`, or an object that conforms to the selections of the operation on its root type, and
every `null` that the type of its place does not allow is reported (`Service.execute_conforms`). This holds of every
schema, document and application, as long as no response key is selected twice on one object and the fields are not
nested deeper than the service resolves them.
-/

namespace GraphQL

namespace Scope

variable {ω ε α : Type} {scope : Scope ω ε α}

/-- Every run. -/
abbrev always : Run ε α → Prop := fun _ => True

private theorem always_any {β : Type} (m : Execution ε α β) : Ensures always m fun _ => True :=
  fun _ _ => ⟨trivial, trivial⟩

/-! ### Fields -/

private theorem dispatch_ownPath (data : Data ω ε) (call : ResolverCall) :
    Ensures always (scope.dispatch data call) fun result =>
      ∀ e, result = .error e → scope.service.host.OwnPath e.path := by
  unfold dispatch
  split
  · intro run _
    exact ⟨fun e he => .resolver he, trivial⟩
  · next n =>
    refine (always_any _).bind fun _ _ => .pure fun e he => ?_
    cases hresult : (n.resolve scope.schema call.head.name call.args : Except ExecutionFault (Data ω ε)) with
    | error fault =>
      rw [hresult] at he
      cases he
      exact .none
    | ok data =>
      rw [hresult] at he
      cases he
  · exact (always_any _).bind fun _ _ => .pure fun e he => .untyped he
  · exact .pure fun e he => by cases he
  · exact .pure fun e he => by cases he; exact .none

private theorem fieldArguments_reports (owner : PlanOwner) (parent : TypeDecl) (decl : FieldDef) (head : FieldHead) :
    Ensures always (scope.fieldArguments owner parent decl head) fun result =>
      result.1 = none → scope.service.host.Reports result.2 [] := by
  unfold fieldArguments
  refine (always_any _).bind fun plan _ => ?_
  obtain ⟨plan, isNew⟩ := plan
  dsimp only
  cases scope.arguments decl plan.order with
  | ok args => exact .pure fun h => by cases h
  | error fault => exact .pure fun _ => (Host.reports_of_mem List.mem_cons_self .none).append_right

variable {left : List Fragment} {children : List Selection} {shape : Shape ω ε α} {depth : Nat}

private theorem declaredField_conforms (hsub : scope.subscribing = false) (hdepth : depth ≠ 0)
    (hshape : scope.ShapesObjects always left children shape (depth - 1)) (owner : PlanOwner) (head : FieldHead)
    (parent : TypeDecl) (decl : FieldDef) (data : Data ω ε) :
    Ensures always (scope.declaredField owner head children shape parent decl data depth) fun result =>
      scope.Conforms (scope.service.host.Reports result.2) (.value decl.type) left children result.1 := by
  unfold declaredField
  refine (fieldArguments_reports owner parent decl head).bind fun result hresult => ?_
  obtain ⟨args, errors⟩ := result
  cases args with
  | none => exact .pure (conforms_null (hresult rfl) _)
  | some args =>
    refine (dispatch_ownPath data _).bind fun resolved hresolved => ?_
    cases resolved with
    | error e => exact .pure (conforms_null (Host.reports_of_mem List.mem_cons_self (hresolved e rfl)).append_right _)
    | ok resolved =>
      simp only [hsub, Bool.false_and]
      have hcomplete : Ensures always (scope.complete shape depth decl.type resolved) fun result =>
          scope.Conforms (scope.service.host.Reports result.2) (.value decl.type) left children result.1 := by
        unfold complete
        rw [if_neg hdepth]
        exact (completeWithin_completes hshape decl.type resolved).mono fun _ h => h.1
      refine hcomplete.bind fun completed hcompleted => .pure ?_
      exact hcompleted.mono fun place hplace => hplace.append_right

/-- What the value of a field promises. -/
private structure FieldConforms (scope : Scope ω ε α) (parent : TypeDecl) (field : CollectedField)
    (result : Outcome (Option Value)) : Prop where
  isSome : result.1.isSome = scope.hasField parent field
  typename : field.head.name = "__typename" → result.1 = some (.string parent.name)
  value : ∀ type v, scope.fieldType? parent field.head = some type → result.1 = some v →
    scope.Conforms (scope.service.host.Reports result.2) (.value type) field.left field.children v

private theorem FieldConforms.of_type {parent : TypeDecl} {field : CollectedField} {type : TypeRef} {v : Value}
    {errors : List Error} (htype : scope.fieldType? parent field.head = some type)
    (h : scope.Conforms (scope.service.host.Reports errors) (.value type) field.left field.children v) :
    FieldConforms scope parent field (some v, errors) where
  isSome := by simp [hasField, htype]
  typename := fun hname => by simp [fieldType?, hname] at htype
  value := fun type' v' htype' hv => by
    rw [htype] at htype'
    cases htype'
    cases hv
    exact h

private theorem field_conforms (hsub : scope.subscribing = false) (hdepth : depth ≠ 0)
    (hshape : scope.ShapesObjects always left children shape (depth - 1)) (owner : PlanOwner) (head : FieldHead)
    (parent : TypeDecl) (data : Data ω ε) :
    Ensures always (scope.field owner head children shape parent data depth)
      (FieldConforms scope parent { head, children, left }) := by
  unfold field
  split
  · next hname =>
    refine .pure ⟨by simp [hasField, hname], fun _ => rfl, fun type v htype => ?_⟩
    simp [fieldType?, hname] at htype
  · next hname =>
    have hintrospection := introspection?_type scope parent hname
    split
    · next fault heq =>
      rw [heq] at hintrospection
      exact .pure (.of_type hintrospection (.null rfl))
    · next data' type heq =>
      rw [heq] at hintrospection
      have hcomplete : Ensures always (scope.complete shape depth type data') fun result =>
          scope.Conforms (scope.service.host.Reports result.2) (.value type) left children result.1 := by
        unfold complete
        rw [if_neg hdepth]
        exact (completeWithin_completes hshape type data').mono fun _ h => h.1
      exact hcomplete.bind fun result hresult => .pure (.of_type hintrospection hresult)
    · next heq =>
      rw [heq] at hintrospection
      split
      · next hdecl =>
        rw [hdecl] at hintrospection
        refine .pure ⟨by simp [hasField, hname, hintrospection, failed], fun h => absurd h hname, fun type v htype => ?_⟩
        simp [hintrospection] at htype
      · next decl hdecl =>
        rw [hdecl] at hintrospection
        refine (declaredField_conforms hsub hdepth hshape owner head parent decl data).bind fun result hresult => ?_
        exact .pure (.of_type hintrospection hresult)

/-! ### Selection sets -/

/-- The entries are those of an object of type `target` on which the fields are selected. -/
private structure Selected (scope : Scope ω ε α) (target : TypeDecl) (fields : List CollectedField)
    (reported : List PathSegment → Prop) (entries : List (String × Value)) : Prop where
  keys : Entries.keys entries = (fields.filter (scope.hasField target)).map CollectedField.key
  typename : ∀ field ∈ fields, ∀ v, field.head.name = "__typename" → (field.key, v) ∈ entries →
    v = .string target.name
  values : ∀ field ∈ fields, ∀ type v, scope.fieldType? target field.head = some type → (field.key, v) ∈ entries →
    scope.Conforms (fun place => reported (.key field.key :: place)) (.value type) field.left field.children v

namespace Selected

variable {target : TypeDecl} {fields more : List CollectedField} {reported reported' : List PathSegment → Prop}
  {entries entries' : List (String × Value)}

private theorem nil : Selected scope target [] reported [] :=
  ⟨rfl, fun _ h => absurd h (by simp), fun _ h => absurd h (by simp)⟩

private theorem mono (h : Selected scope target fields reported entries)
    (hsub : ∀ place, reported place → reported' place) : Selected scope target fields reported' entries :=
  ⟨h.keys, h.typename, fun field hfield type v htype hv => (h.values field hfield type v htype hv).mono fun _ => hsub _⟩

private theorem keys_subset (h : Selected scope target fields reported entries) {key : String}
    (hkey : key ∈ Entries.keys entries) : key ∈ fields.map CollectedField.key := by
  rw [h.keys] at hkey
  obtain ⟨field, hfield, rfl⟩ := List.mem_map.1 hkey
  exact List.mem_map_of_mem (List.mem_filter.1 hfield).1

private theorem append (h : Selected scope target fields reported entries)
    (h' : Selected scope target more reported entries')
    (hdisjoint : ∀ key ∈ fields.map CollectedField.key, key ∉ more.map CollectedField.key) :
    Selected scope target (fields ++ more) reported (entries ++ entries') := by
  -- an entry of a field stands on the field's own side
  have hleft : ∀ field ∈ fields, ∀ v, (field.key, v) ∈ entries ++ entries' → (field.key, v) ∈ entries := by
    intro field hfield v hv
    rcases List.mem_append.1 hv with hv | hv
    · exact hv
    · exact absurd (h'.keys_subset (Entries.mem_keys_of_mem hv)) (hdisjoint _ (List.mem_map_of_mem hfield))
  have hright : ∀ field ∈ more, ∀ v, (field.key, v) ∈ entries ++ entries' → (field.key, v) ∈ entries' := by
    intro field hfield v hv
    rcases List.mem_append.1 hv with hv | hv
    · exact absurd (List.mem_map_of_mem hfield) (hdisjoint _ (h.keys_subset (Entries.mem_keys_of_mem hv)))
    · exact hv
  refine ⟨by simp [h.keys, h'.keys], ?_, ?_⟩
  · intro field hfield v hname hv
    rcases List.mem_append.1 hfield with hfield | hfield
    · exact h.typename field hfield v hname (hleft field hfield v hv)
    · exact h'.typename field hfield v hname (hright field hfield v hv)
  · intro field hfield type v htype hv
    rcases List.mem_append.1 hfield with hfield | hfield
    · exact h.values field hfield type v htype (hleft field hfield v hv)
    · exact h'.values field hfield type v htype (hright field hfield v hv)

private theorem of_field {field : CollectedField} {errors : List Error} {v : Option Value}
    (h : FieldConforms scope target field (v, errors)) :
    Selected scope target [field]
      (scope.service.host.Reports (errors.map (.prefixed (.key field.key))))
      (v.toList.map fun v => (field.key, v)) := by
  cases v with
  | none =>
    have hfield : scope.hasField target field = false := by rw [← h.isSome]; rfl
    exact ⟨by simp [hfield, Entries.keys], fun _ _ v _ hv => absurd hv (by simp),
      fun _ _ _ v _ hv => absurd hv (by simp)⟩
  | some v =>
    have hfield : scope.hasField target field = true := by rw [← h.isSome]; rfl
    refine ⟨by simp [hfield, Entries.keys], ?_, ?_⟩
    · intro other hother w hname hw
      obtain rfl := List.mem_singleton.1 hother
      obtain rfl : w = v := by simpa using hw
      exact Option.some.inj (h.typename hname)
    · intro other hother type w htype hw
      obtain rfl := List.mem_singleton.1 hother
      obtain rfl : w = v := by simpa using hw
      exact (h.value type w htype rfl).mono fun place hplace => hplace.prefixed _

private theorem conforms {selections : List Selection}
    (h : Selected scope target (scope.collected target left selections) reported entries) :
    scope.Conforms reported (.object target) left selections (.object entries) :=
  .object h.keys h.typename h.values

end Selected

private theorem mergeEntry_of_not_mem {entries : List (String × Value)} {key : String}
    (h : key ∉ Entries.keys entries) (v : Value) : mergeEntry entries key v = entries ++ [(key, v)] := by
  cases v with
  | object more => simp [mergeEntry, Entries.get?_eq_none_iff.2 h, Entries.put_of_not_mem h]
  | _ => exact Entries.put_of_not_mem h

/-- What executing a selection set promises: entries are added that conform to the fields collected from it. -/
private def Adds (scope : Scope ω ε α) (type : TypeDecl) (fields : List CollectedField)
    (entries : List (String × Value)) (result : Outcome (List (String × Value))) : Prop :=
  ∃ new, result.1 = entries ++ new ∧ Selected scope type fields (scope.service.host.Reports result.2) new

private theorem Adds.append {type : TypeDecl} {fields more : List CollectedField} {entries : List (String × Value)}
    {first second : Outcome (List (String × Value))} (h : Adds scope type fields entries first)
    (h' : Adds scope type more first.1 second)
    (hdisjoint : ∀ key ∈ fields.map CollectedField.key, key ∉ more.map CollectedField.key) :
    Adds scope type (fields ++ more) entries (second.1, first.2 ++ second.2) := by
  obtain ⟨new, hnew, hselected⟩ := h
  obtain ⟨new', hnew', hselected'⟩ := h'
  refine ⟨new ++ new', by rw [hnew', hnew, List.append_assoc], ?_⟩
  exact (hselected.mono fun _ hplace => hplace.append_left).append
    (hselected'.mono fun _ hplace => hplace.append_right) hdisjoint

/-- Executing a selection set adds what is selected to the entries. The recursion is that of `Scope.collected`: on the
fragments that are left, and then on the selections. -/
private theorem select_adds (hsub : scope.subscribing = false) (left : List Fragment) (owner : PlanOwner)
    (selections : List Selection) (type : TypeDecl) (data : Data ω ε) (depth : Nat) (entries : List (String × Value))
    (hdistinct : ((scope.collected type left selections).map CollectedField.key).Nodup)
    (hbelow : ∀ field ∈ scope.collected type left selections, scope.KeysDistinct field.left field.children)
    (hlevels : Selection.levels left selections ≤ depth)
    (hnew : ∀ key ∈ (scope.collected type left selections).map CollectedField.key, key ∉ Entries.keys entries) :
    Ensures always (scope.select (scope.expand left) owner selections type data depth entries)
      (Adds scope type (scope.collected type left selections) entries) := by
  match selections with
  | [] =>
    rw [select, collected]
    exact .pure ⟨[], by simp, .nil⟩
  | selection :: rest =>
    have hlevels_rest : Selection.levels left rest ≤ depth := Nat.le_trans (Selection.levels_rest left selection rest) hlevels
    rw [collected_cons] at hdistinct hbelow hnew ⊢
    rw [List.map_append, List.nodup_append] at hdistinct
    rw [List.map_append] at hnew
    obtain ⟨hdistinct_one, hdistinct_rest, hdisjoint⟩ := hdistinct
    have hdisjoint' : ∀ key ∈ (scope.collectedOne type left selection).map CollectedField.key,
        key ∉ (scope.collected type left rest).map CollectedField.key :=
      fun key hkey hkey' => hdisjoint key hkey key hkey' rfl
    -- the selections after the first add to what the first added
    have hrest : ∀ result, Adds scope type (scope.collectedOne type left selection) entries result →
        Ensures always (scope.select (scope.expand left) owner rest type data depth result.1)
          (Adds scope type (scope.collected type left rest) result.1) := by
      intro result hresult
      refine select_adds hsub left owner rest type data depth result.1 hdistinct_rest
        (fun field hfield => hbelow field (List.mem_append_right _ hfield)) hlevels_rest fun key hkey => ?_
      obtain ⟨new, hresult, hselected⟩ := hresult
      rw [hresult, Entries.keys_append, List.mem_append, not_or]
      exact ⟨hnew key (List.mem_append_right _ hkey), fun h => hdisjoint' key (hselected.keys_subset h) hkey⟩
    have hone : scope.omission? selection.directives = none →
        Ensures always (scope.selectOne (scope.expand left) owner selection type data depth entries)
          (Adds scope type (scope.collectedOne type left selection) entries) := by
      intro homission
      cases hselection : selection with
      | field head children =>
        rw [hselection] at homission hbelow hnew hlevels
        rw [collectedOne_field homission] at hbelow hnew ⊢
        rw [Selection.levels] at hlevels
        cases hbelow { head, children, left } List.mem_cons_self with
        | intro hhere hbelow =>
        have hshape : scope.ShapesObjects always left children
            (fun type data depth => scope.select (scope.expand left) owner children type data depth [])
            (depth - 1) := by
          intro target data
          refine (select_adds hsub left owner children target data (depth - 1) [] (hhere target) (hbelow target)
            (by omega) (fun _ _ => by simp [Entries.keys])).mono fun result hresult => ?_
          obtain ⟨new, hresult, hselected⟩ := hresult
          rw [hresult, List.nil_append]
          exact hselected.conforms
        rw [selectOne]
        refine (field_conforms hsub (by omega) hshape owner head type data).bind fun result hresult => .pure ?_
        obtain ⟨v, errors⟩ := result
        refine ⟨v.toList.map fun v => (head.key, v), ?_, .of_field hresult⟩
        cases v with
        | none => simp
        | some v => exact mergeEntry_of_not_mem (hnew _ (by simp [CollectedField.key])) v
      | inline condition directives pos children =>
        rw [hselection] at homission hdistinct_one hbelow hnew hlevels
        rw [selectOne]
        rw [collectedOne_inline homission] at hdistinct_one hbelow hnew ⊢
        rw [Selection.levels] at hlevels
        split
        · next happlies =>
          simp only [happlies, ↓reduceIte] at hdistinct_one hbelow hnew ⊢
          exact select_adds hsub left owner children type data depth entries hdistinct_one
            (fun field hfield => hbelow field (List.mem_append_left _ hfield)) (by omega)
            fun key hkey => hnew key (List.mem_append_left _ hkey)
        · exact .pure ⟨[], by simp, .nil⟩
      | spread name directives pos =>
        rw [hselection] at homission hdistinct_one hbelow hnew hlevels
        rw [selectOne, expand_eq]
        cases hfragment : Members.get? name left with
        | none =>
          rw [collectedOne_spread homission, hfragment]
          exact .pure ⟨[], by simp [failed], .nil⟩
        | some fragment =>
          rw [collectedOne_spread homission, hfragment] at hdistinct_one hbelow hnew ⊢
          rw [Selection.levels, hfragment] at hlevels
          dsimp only [Option.map_some] at hdistinct_one hbelow hnew hlevels ⊢
          by_cases happlies : scope.applies fragment.condition type = true
          · rw [if_pos happlies] at hdistinct_one hbelow hnew ⊢
            refine (select_adds hsub (Members.erase name left) (.fragment name) fragment.selections type data depth
              entries hdistinct_one (fun field hfield => hbelow field (List.mem_append_left _ hfield)) (by omega)
              fun key hkey => hnew key (List.mem_append_left _ hkey)).bind fun result hresult => .pure ?_
            obtain ⟨new, hresult, hselected⟩ := hresult
            rw [if_pos happlies]
            exact ⟨new, hresult, hselected.mono fun place hplace => hplace.labelled pos⟩
          · rw [if_neg happlies, if_neg happlies]
            exact .pure ⟨[], by simp, .nil⟩
    rw [select]
    cases homission : scope.omission? selection.directives with
    | some warnings =>
      have hnone : Adds scope type (scope.collectedOne type left selection) entries (entries, warnings) :=
        ⟨[], by simp, by rw [collectedOne_omitted homission]; exact .nil⟩
      exact (hrest _ hnone).bind fun result hresult => .pure (hnone.append hresult hdisjoint')
    | none =>
      exact (hone homission).bind fun first hfirst => (hrest first hfirst).bind fun second hsecond =>
        .pure (hfirst.append hsecond hdisjoint')
termination_by (left.length, sizeOf selections)
decreasing_by
  all_goals first
    | exact Prod.Lex.left _ _ (Members.length_erase_lt ‹_›)
    | (apply Prod.Lex.right
       simp only [*, List.cons.sizeOf_spec, Selection.field.sizeOf_spec, Selection.inline.sizeOf_spec]
       omega)

end Scope

/-! ### Responses -/

namespace Service

variable {ω ε α : Type}

/-- The operation is a query or a mutation, selects no response key twice on one object, and its fields are not nested
deeper than objects are resolved. -/
structure Answers (service : Service ω ε α) (document : Document) (copy shared : Nat) (operation : Operation)
    (variableValues : List (String × Value)) : Prop where
  kind : operation.kind ≠ .subscription
  levels : Selection.levels document.fragments operation.selections ≤ service.maxDepth
  keys : (service.scope document copy shared operation variableValues).KeysDistinct document.fragments
    operation.selections

private theorem perform_conforms (service : Service ω ε α) (document : Document) (copy : Nat) (operation : Operation)
    (type : TypeDecl) (variableValues : List (String × Value)) (runtime : Runtime ε α)
    (h : service.Answers document copy runtime.next operation variableValues) :
    let result := (service.perform document copy operation type variableValues runtime).1
    (service.scope document copy runtime.next operation variableValues).Conforms (service.host.Reports result.2)
      (.object type) document.fragments operation.selections (.object result.1) := by
  intro result
  have hsub : (service.scope document copy runtime.next operation variableValues).subscribing = false := by
    cases hkind : operation.kind <;> simp [scope, hkind]
    exact h.kind hkind
  cases h.keys with
  | intro here below =>
    have hadds := Scope.select_adds hsub document.fragments (.operation operation.name) operation.selections type
      (service.root operation.kind) service.maxDepth [] (here type) (below type) h.levels
      (fun _ _ => by simp [Entries.keys]) { runtime := runtime.fresh.2 } trivial
    obtain ⟨new, hnew, hselected⟩ := hadds.1
    have hresult : result.1 = new := hnew
    rw [hresult]
    exact hselected.conforms

/-- The data of a response is `null` or conforms to the selections of the operation on its root type. -/
theorem execute_conforms (service : Service ω ε α) (document : Document) (copy : Nat) (name : Option String)
    (supplied : List (String × Value)) (runtime : Runtime ε α)
    (h : ∀ operation type variableValues,
      service.prepare document name supplied = .ok (operation, type, variableValues) →
        service.Answers document copy runtime.next operation variableValues) :
    let response := (service.execute document copy name supplied runtime).1
    response.data = .null ∨
      ∃ operation type variableValues,
        service.prepare document name supplied = .ok (operation, type, variableValues) ∧
          (service.scope document copy runtime.next operation variableValues).Conforms
            (service.host.Reports response.errors) (.object type) document.fragments operation.selections
            response.data := by
  intro response
  cases hprepare : service.prepare document name supplied with
  | error errors => exact .inl (by simp [response, execute, hprepare, Response.failed])
  | ok prepared =>
    obtain ⟨operation, type, variableValues⟩ := prepared
    have hanswers := h operation type variableValues hprepare
    refine .inr ⟨operation, type, variableValues, rfl, ?_⟩
    have hconforms := perform_conforms service document copy operation type variableValues runtime hanswers
    have hresponse : response.data = .object (service.perform document copy operation type variableValues runtime).1.1 ∧
        response.errors = (service.perform document copy operation type variableValues runtime).1.2 := by
      simp only [response, execute, hprepare, run, hanswers.kind, ↓reduceIte, List.append_nil]
      split <;> exact ⟨rfl, rfl⟩
    rw [hresponse.1, hresponse.2]
    exact hconforms

/-- A service with a song whose title is missing. -/
private def untitled : Service Empty Empty Unit where
  schema :=
    { types :=
        [{ name := "String", body := .scalar .string },
          { name := "Query", body := .object { fields := [{ name := "song", type := .named "Song" }] } },
          { name := "Song", body := .object { fields := [{ name := "title", type := .nonNull (.named "String") }] } }] }
  root _ := .value (.object [("song", .object [("title", .null)])])
  host :=
    { typeName := nofun, implementation? := nofun, resolve := nofun, items? := nofun, untyped := .plain,
      accepts := nofun, send := nofun, dismiss := nofun }

/-- A query for the title of the song. -/
private def titleQuery : Operation where
  kind := .query
  name := ""
  selections := [.field { name := "song", pos := .start } [.field { name := "title", pos := .start } []]]
  pos := .start

private theorem untitled_answers (copy shared : Nat) :
    untitled.Answers { operations := [titleQuery], fragments := [] } copy shared titleQuery [] where
  kind := nofun
  levels := by simp [titleQuery, Selection.levels, untitled]
  keys := by
    refine .intro (fun type => ?_) fun type field hfield => ?_
    · simp [titleQuery, Scope.collected, Selection.directives, Scope.omission?]
    · simp only [titleQuery, Scope.collected, Selection.directives, Scope.omission?] at hfield
      obtain rfl := List.mem_singleton.1 hfield
      refine .intro (fun type => ?_) fun type field hfield => ?_
      · simp [Scope.collected, Selection.directives, Scope.omission?]
      · simp only [Scope.collected, Selection.directives, Scope.omission?] at hfield
        obtain rfl := List.mem_singleton.1 hfield
        exact .intro (fun type => by simp [Scope.collected]) fun type field hfield => by
          simp [Scope.collected] at hfield

private theorem untitled_prepare {operation : Operation} {type : TypeDecl} {variableValues : List (String × Value)}
    (h : untitled.prepare { operations := [titleQuery], fragments := [] } none [] =
      .ok (operation, type, variableValues)) : operation = titleQuery ∧ variableValues = [] := by
  simp only [prepare, Document.operation?, titleQuery, VariableDef.values] at h
  split at h
  · cases h
  · cases h
    exact ⟨rfl, rfl⟩

theorem untitled_conforms :
    let document : Document := { operations := [titleQuery], fragments := [] }
    let response := (untitled.execute document 0 none [] { app := () }).1
    response.data = .object [("song", .object [("title", .null)])] ∧
      (response.data = .null ∨
        ∃ operation type variableValues,
          untitled.prepare document none [] = .ok (operation, type, variableValues) ∧
            (untitled.scope document 0 0 operation variableValues).Conforms
              (untitled.host.Reports response.errors) (.object type) document.fragments operation.selections
              response.data) := by
  refine ⟨by cbv, execute_conforms untitled _ 0 none [] { app := () } fun operation type variableValues h => ?_⟩
  obtain ⟨rfl, rfl⟩ := untitled_prepare h
  exact untitled_answers 0 0

end Service

end GraphQL
