import GraphQL.Proofs.Schema.Reachable
import GraphQL.Proofs.Schema.References

/-!
# Schemas with other literals stay valid

Coercion accepts the same values whatever the literals of a schema are (`Coercion.isOk_coerceIn_rewritten`), and a valid
schema stays valid when every literal is replaced by one that may stand in its place (`Schema.Valid.rewritten`).
-/

namespace GraphQL

namespace Coercion

/-- The same coercion where the schema has other literals. -/
def rewritten (c : Coercion) (r : Rewriting) : Coercion := { c with schema := c.schema.rewritten r }

/-! ### Outcomes -/

variable {c : Coercion} {r : Rewriting}

private theorem isOk_map {ε α β : Type} {f : α → β} (result : Except ε α) : (result.map f).isOk = result.isOk := by
  cases result <;> rfl

/-- The keys with whether what belongs to them could be coerced. -/
private def outcomes (given : List (String × Except CoercionError Value)) : List (String × Bool) :=
  given.map fun entry => (entry.1, entry.2.isOk)

private theorem keys_outcomes (given : List (String × Except CoercionError Value)) :
    Entries.keys (outcomes given) = Entries.keys given := by simp [outcomes, Entries.keys]

private theorem get?_outcomes (key : String) (given : List (String × Except CoercionError Value)) :
    Entries.get? key (outcomes given) = (Entries.get? key given).map Except.isOk :=
  Entries.get?_map (f := fun _ result => Except.isOk result)

private theorem isOk_inputEntries {input : String} {given given' : List (String × Except CoercionError Value)}
    (h : outcomes given' = outcomes given) (fields : List InputValue) :
    (inputEntries input given' (fields.map r.input)).isOk = (inputEntries input given fields).isOk := by
  induction fields with
  | nil => rfl
  | cons field fields ih =>
    have hget : (Entries.get? field.name given').map Except.isOk = (Entries.get? field.name given).map Except.isOk := by
      rw [← get?_outcomes, h, get?_outcomes]
    rw [List.map_cons]
    unfold inputEntries
    simp only [Rewriting.input]
    cases hgiven : Entries.get? field.name given with
    | none =>
      have hgiven' : Entries.get? field.name given' = none := by simpa [hgiven] using hget
      rw [hgiven']
      cases field.default with
      | some v => simpa [isOk_map] using ih
      | none =>
        by_cases hnull : field.type.isNonNull = true
        · simp [hnull]
        · simpa [hnull] using ih
    | some result =>
      rw [hgiven] at hget
      obtain ⟨result', hgiven', hsame⟩ := Option.map_eq_some_iff.1 hget
      rw [hgiven']
      cases result with
      | ok v =>
        cases result' with
        | ok v' => simpa [isOk_map] using ih
        | error reason' => cases hsame
      | error reason =>
        cases result' with
        | ok v' => cases hsame
        | error reason' => rfl

private theorem isOk_coerceInput {input : String} {given given' : List (String × Except CoercionError Value)}
    (h : outcomes given' = outcomes given) (fields : List InputValue) :
    (coerceInput input (fields.map r.input) given').isOk = (coerceInput input fields given).isOk := by
  have hkeys : Entries.keys given' = Entries.keys given := by rw [← keys_outcomes, h, keys_outcomes]
  have hcontains (name : String) : Members.contains name (fields.map r.input) = Members.contains name fields :=
    Members.contains_map fun _ => rfl
  unfold coerceInput
  simp only [hkeys, hcontains]
  split
  · rfl
  · rw [isOk_map, isOk_map, isOk_inputEntries h]

private theorem coerceSymbol_rewritten (enum : String) (values : List EnumValue) (v : Value) :
    (c.rewritten r).coerceSymbol enum (values.map r.symbol) v = c.coerceSymbol enum values v := by
  have hcontains (name : String) :
      Members.contains name (values.map r.symbol) = Members.contains name values :=
    Members.contains_map fun _ => rfl
  simp only [coerceSymbol, hcontains, Coercion.rewritten]

private theorem isOk_coerceNamed (v : Value)
    {given given' : Option (List InputValue → List (String × Except CoercionError Value))}
    (h : ∀ fields : List InputValue,
      given'.map (fun given => outcomes (given (fields.map r.input))) =
        given.map fun given => outcomes (given fields)) (name : String) :
    ((c.rewritten r).coerceNamed v given' name).isOk = (c.coerceNamed v given name).isOk := by
  unfold coerceNamed
  have htype : (c.rewritten r).schema.type? name = (c.schema.type? name).map r.type :=
    Schema.type?_rewritten
  rw [htype]
  cases c.schema.type? name with
  | none => rfl
  | some decl =>
    simp only [Option.map_some, Rewriting.type]
    cases hbody : decl.body with
    | scalar kind => rfl
    | enum values =>
      simp only [Rewriting.body]
      rw [coerceSymbol_rewritten]
    | input fields =>
      simp only [Rewriting.body]
      cases given with
      | none =>
        have hnone : given' = none := by simpa using h fields
        rw [hnone]
      | some given =>
        obtain ⟨given', rfl, hsame⟩ := Option.map_eq_some_iff.1 (h fields)
        exact isOk_coerceInput hsame fields
    | object _ | interface _ | union _ | schema _ => rfl

private theorem isOk_coerceAs {items items' : TypeRef → Option (Except CoercionError (List Value))}
    {named named' : String → Except CoercionError Value}
    (hitems : ∀ item, (items' item).map Except.isOk = (items item).map Except.isOk)
    (hnamed : ∀ name, (named' name).isOk = (named name).isOk) (type : TypeRef) :
    (coerceAs items' named' type).isOk = (coerceAs items named type).isOk := by
  induction type with
  | named name | unresolved name pos => exact hnamed name
  | nonNull inner ih => exact ih
  | list item ih =>
    unfold coerceAs
    have hhere := hitems item
    cases hresult : items item with
    | none =>
      have hresult' : items' item = none := by simpa [hresult] using hhere
      simp only [hresult', isOk_map, ih]
    | some result =>
      rw [hresult] at hhere
      obtain ⟨result', hresult', hsame⟩ := Option.map_eq_some_iff.1 hhere
      simp only [hresult', isOk_map, hsame]

mutual

/-- Whatever the literals of a schema, the same values can be coerced. -/
theorem isOk_coerceIn_rewritten (type : TypeRef) (v : Value) :
    ((c.rewritten r).coerceIn type v).isOk = (c.coerceIn type v).isOk := by
  cases v with
  | var name => unfold coerceIn; rfl
  | null => unfold coerceIn; rfl
  | list items =>
    unfold coerceIn
    refine isOk_coerceAs (fun item => ?_) (isOk_coerceNamed _ fun _ => rfl) type
    exact congrArg some (isOk_coerceItems_rewritten item items)
  | object entries =>
    unfold coerceIn
    refine isOk_coerceAs (fun _ => rfl) (isOk_coerceNamed _ fun fields => ?_) type
    exact congrArg some (outcomes_coerceEntries_rewritten fields entries)
  | bool _ | int _ | float _ | string _ | enum _ | time _ =>
    unfold coerceIn
    exact isOk_coerceAs (fun _ => rfl) (isOk_coerceNamed _ fun _ => rfl) type

private theorem isOk_coerceItems_rewritten (item : TypeRef) (items : List Value) :
    ((c.rewritten r).coerceItems item items).isOk = (c.coerceItems item items).isOk := by
  cases items with
  | nil => rfl
  | cons v rest =>
    have hhere := isOk_coerceIn_rewritten item v
    have hrest := isOk_coerceItems_rewritten item rest
    unfold coerceItems
    cases hv : c.coerceIn item v with
    | ok w =>
      rw [hv] at hhere
      cases hv' : (c.rewritten r).coerceIn item v with
      | ok w' => simp only [isOk_map, hrest]
      | error reason' =>
        rw [hv'] at hhere
        cases hhere
    | error reason =>
      rw [hv] at hhere
      cases hv' : (c.rewritten r).coerceIn item v with
      | ok w' =>
        rw [hv'] at hhere
        cases hhere
      | error reason' => rfl

private theorem outcomes_coerceEntries_rewritten (fields : List InputValue) (entries : List (String × Value)) :
    outcomes ((c.rewritten r).coerceEntries (fields.map r.input) entries) =
      outcomes (c.coerceEntries fields entries) := by
  cases entries with
  | nil => rfl
  | cons entry rest =>
    obtain ⟨key, v⟩ := entry
    have hrest := outcomes_coerceEntries_rewritten fields rest
    have hget : Members.get? key (fields.map r.input) =
        (Members.get? key fields).map r.input := Members.get?_map fun _ => rfl
    unfold coerceEntries
    simp only [outcomes, List.map_cons] at hrest ⊢
    rw [hrest, hget]
    cases Members.get? key fields with
    | none => rfl
    | some field => simp only [Option.map_some, Rewriting.input, isOk_coerceIn_rewritten]

end

end Coercion

namespace Schema

variable {schema : Schema} {r : Rewriting}

theorem accepts_rewritten {type : TypeRef} {v : Value} :
    (schema.rewritten r).Accepts type v ↔ schema.Accepts type v := by
  have hok {result : Except CoercionError Value} : (∃ w, result = .ok w) ↔ result.isOk = true := by
    cases result <;> simp [Except.isOk, Except.toBool]
  unfold Accepts
  rw [hok, hok]
  have hsame : ((schema.rewritten r).coercion.coerceIn type v).isOk = (schema.coercion.coerceIn type v).isOk :=
    Coercion.isOk_coerceIn_rewritten (c := schema.coercion) type v
  rw [hsame]

/-! ### Validity -/

/-- The schema is as it is left when declarations are accepted: members are distinct, nothing is wrong and no reference
waits to be resolved. -/
structure Valid (schema : Schema) : Prop where
  distinct : schema.Distinct
  faults : schema.faults = []
  resolved : schema.resolved = schema

end Schema

/-- What becomes of a literal may stand in the place of the literal. -/
def Rewriting.Keeps (r : Rewriting) (schema : Schema) : Detail → Prop
  | .use use => ∀ location earlier, schema.useFaults location false earlier use = [] →
      (schema.rewritten r).useFaults location false earlier (r.use use) = []
  | .default type v => schema.Accepts type v → schema.Accepts type (r.literal type v)
  | _ => True

namespace Schema

variable {schema : Schema} {r : Rewriting}

private theorem usesFaults_rewritten {location : DirectiveLocation} (uses : List DirectiveUse)
    (h : ∀ use ∈ uses, r.Keeps schema (.use use)) :
    ∀ {earlier : List String}, schema.usesFaults location false earlier uses = [] →
      (schema.rewritten r).usesFaults location false earlier (uses.map r.use) = [] := by
  induction uses with
  | nil => exact fun _ => rfl
  | cons use uses ih =>
    intro earlier huses
    obtain ⟨huse, huses⟩ := usesFaults_cons_eq_nil_iff.1 huses
    obtain ⟨hkeeps, hrest⟩ := List.forall_mem_cons.1 h
    refine usesFaults_cons_eq_nil_iff.2 ⟨hkeeps location earlier huse, ?_⟩
    rw [r.name_use]
    exact ih hrest huses

private theorem directivesFaults_rewritten {location : DirectiveLocation} {uses : List DirectiveUse}
    (h : ∀ use ∈ uses, r.Keeps schema (.use use)) (huses : schema.directivesFaults location uses = []) :
    (schema.rewritten r).directivesFaults location (uses.map r.use) = [] :=
  directivesFaults_eq_nil_iff.2 (usesFaults_rewritten uses h (directivesFaults_eq_nil_iff.1 huses))

private theorem inputFaults_rewritten {what : String} {builtin : Bool} {location : DirectiveLocation}
    {value : InputValue} (h : ∀ detail ∈ value.details, r.Keeps schema detail)
    (hvalue : schema.inputFaults what builtin location value = []) :
    (schema.rewritten r).inputFaults what builtin location (r.input value) = [] := by
  obtain ⟨-, -, hkeeps, huses⟩ := InputValue.forall_details_iff.1 h
  obtain ⟨hname, hinput, hdirectives, hdefault⟩ := inputFaults_eq_nil_iff.1 hvalue
  refine inputFaults_eq_nil_iff.2
    ⟨hname, (isInput_rewritten _).trans hinput, directivesFaults_rewritten huses hdirectives, ?_⟩
  refine defaultFaults_eq_nil_iff.2 fun w hw => ?_
  obtain ⟨v, hv, rfl⟩ := Option.map_eq_some_iff.1 hw
  exact accepts_rewritten.2 (hkeeps v hv (defaultFaults_eq_nil_iff.1 hdefault v hv))

private theorem inputsFaults_rewritten (what : String → String) {builtin : Bool} {location : DirectiveLocation}
    {args : List InputValue} (h : ∀ arg ∈ args, ∀ detail ∈ arg.details, r.Keeps schema detail)
    (hargs : ∀ arg ∈ args, schema.inputFaults (what arg.name) builtin location arg = []) :
    ∀ arg ∈ args.map r.input, (schema.rewritten r).inputFaults (what arg.name) builtin location arg = [] :=
  List.forall_mem_map.2 fun arg harg => inputFaults_rewritten (h arg harg) (hargs arg harg)

private theorem fieldFaults_rewritten {owner : String} {builtin : Bool} {field : FieldDef}
    (h : ∀ detail ∈ field.details, r.Keeps schema detail) (hfield : schema.fieldFaults owner builtin field = []) :
    (schema.rewritten r).fieldFaults owner builtin (r.field field) = [] := by
  obtain ⟨-, -, -, hkeeps, huses⟩ := FieldDef.forall_details_iff.1 h
  obtain ⟨hname, houtput, hdirectives, hargs⟩ := fieldFaults_eq_nil_iff.1 hfield
  exact fieldFaults_eq_nil_iff.2 ⟨hname, (isOutput_rewritten _).trans houtput,
    directivesFaults_rewritten huses hdirectives,
    inputsFaults_rewritten (fun name => s!"{owner}.{field.name}({name}:)") hkeeps hargs⟩

/-! #### Interfaces -/

private theorem argumentsFaults_rewritten {type interface : String} {field expected : FieldDef}
    (h : argumentsFaults type interface field expected = []) :
    argumentsFaults type interface (r.field field) (r.field expected) = [] := by
  obtain ⟨hdeclared, hoptional⟩ := argumentsFaults_eq_nil_iff.1 h
  refine argumentsFaults_eq_nil_iff.2
    ⟨List.forall_mem_map.2 fun arg harg => ?_, List.forall_mem_map.2 fun arg harg => ?_⟩
  · obtain ⟨found, hfound, htype⟩ := hdeclared arg harg
    have hget : Members.get? arg.name (field.args.map r.input) = (Members.get? arg.name field.args).map r.input :=
      Members.get?_map fun _ => rfl
    refine ⟨r.input found, ?_, htype⟩
    show Members.get? arg.name (field.args.map r.input) = some (r.input found)
    rw [hget, hfound]
    rfl
  · have hcontains : Members.contains arg.name (expected.args.map r.input) =
        Members.contains arg.name expected.args := Members.contains_map fun _ => rfl
    intro hnew
    have hrequired := hoptional arg harg (hcontains ▸ hnew)
    simpa [InputValue.isRequired, Rewriting.input] using hrequired

private theorem conformanceFaults_rewritten {type interface : String} {fields : List FieldDef} {pos : Pos}
    {expected : FieldDef} (h : schema.conformanceFaults type interface fields pos expected = []) :
    (schema.rewritten r).conformanceFaults type interface (fields.map r.field) pos (r.field expected) = [] := by
  obtain ⟨field, hfield, hsubtype, harguments⟩ := conformanceFaults_eq_nil_iff.1 h
  have hget : Members.get? expected.name (fields.map r.field) = (Members.get? expected.name fields).map r.field :=
    Members.get?_map fun _ => rfl
  refine conformanceFaults_eq_nil_iff.2 ⟨r.field field, ?_, ?_, argumentsFaults_rewritten harguments⟩
  · show Members.get? expected.name (fields.map r.field) = _
    rw [hget, hfield]
    rfl
  · exact (isSubtype_rewritten _ _).trans hsubtype

private theorem interfaceFaults_rewritten {type : String} {body : ObjectBody} {pos : Pos} {interface : String}
    (h : schema.interfaceFaults type body pos interface = []) :
    (schema.rewritten r).interfaceFaults type { body with fields := body.fields.map r.field } pos interface = [] := by
  obtain ⟨hne, hexpected⟩ := interfaceFaults_eq_nil_iff.1 h
  refine interfaceFaults_eq_nil_iff.2 ⟨hne, fun decl' hdecl' => ?_⟩
  rw [type?_rewritten] at hdecl'
  obtain ⟨decl, hdecl, rfl⟩ := Option.map_eq_some_iff.1 hdecl'
  obtain ⟨expected, hbody, hinherited, hfields⟩ := hexpected decl hdecl
  refine ⟨{ expected with fields := expected.fields.map r.field }, ?_, hinherited, ?_⟩
  · show r.body decl.body = _
    rw [hbody]
    rfl
  · exact List.forall_mem_map.2 fun field hfield => conformanceFaults_rewritten (hfields field hfield)

/-! #### Declarations -/

private theorem isEmpty_map {α β : Type} (f : α → β) (members : List α) :
    (members.map f).isEmpty = members.isEmpty := by
  cases members <;> rfl

private theorem objectFaults_rewritten {type : TypeDecl} {body : ObjectBody}
    (h : ∀ detail ∈ body.details, r.Keeps schema detail) (hobject : schema.objectFaults type body = []) :
    (schema.rewritten r).objectFaults (r.type type) { body with fields := body.fields.map r.field } = [] := by
  obtain ⟨hempty, hfields, hinterfaces⟩ := objectFaults_eq_nil_iff.1 hobject
  have hkeeps := (ObjectBody.forall_details_iff.1 h).2
  refine objectFaults_eq_nil_iff.2 ⟨(isEmpty_map _ _).trans hempty, ?_, fun interface hinterface => ?_⟩
  · exact List.forall_mem_map.2 fun field hfield => fieldFaults_rewritten (hkeeps field hfield) (hfields field hfield)
  · exact interfaceFaults_rewritten (hinterfaces interface hinterface)

private theorem symbolFaults_rewritten {builtin : Bool} {value : EnumValue}
    (h : ∀ detail ∈ value.details, r.Keeps schema detail) (hvalue : schema.symbolFaults builtin value = []) :
    (schema.rewritten r).symbolFaults builtin (r.symbol value) = [] := by
  obtain ⟨hname, hdirectives⟩ := List.append_eq_nil_iff.1 hvalue
  exact List.append_eq_nil_iff.2
    ⟨hname, directivesFaults_rewritten (EnumValue.forall_details_iff.1 h).2.2 hdirectives⟩

private theorem bodyFaults_rewritten {type : TypeDecl}
    (h : ∀ detail ∈ type.body.details type.name, r.Keeps schema detail) (htype : schema.bodyFaults type = []) :
    (schema.rewritten r).bodyFaults (r.type type) = [] := by
  unfold bodyFaults at htype ⊢
  have hbody : (r.type type).body = r.body type.body := rfl
  rw [hbody]
  cases hcase : type.body with
  | scalar kind => rfl
  | object body | interface body =>
    rw [hcase] at h htype
    exact objectFaults_rewritten (List.forall_mem_cons.1 h).2 htype
  | union members =>
    rw [hcase] at htype
    simp only [Rewriting.body, isObject_rewritten]
    exact htype
  | enum values =>
    rw [hcase] at h htype
    have hkeeps := List.forall_mem_flatMap.1 (List.forall_mem_cons.1 h).2
    obtain ⟨hempty, hvalues⟩ := List.append_eq_nil_iff.1 htype
    refine List.append_eq_nil_iff.2 ⟨by rw [isEmpty_map]; exact hempty, List.flatMap_eq_nil_iff.2 ?_⟩
    exact List.forall_mem_map.2 fun value hvalue =>
      symbolFaults_rewritten (hkeeps value hvalue) (List.flatMap_eq_nil_iff.1 hvalues value hvalue)
  | input fields =>
    rw [hcase] at h htype
    have hkeeps := List.forall_mem_flatMap.1 (List.forall_mem_cons.1 h).2
    obtain ⟨hempty, hfields⟩ := List.append_eq_nil_iff.1 htype
    refine List.append_eq_nil_iff.2 ⟨by rw [isEmpty_map]; exact hempty, List.flatMap_eq_nil_iff.2 ?_⟩
    exact inputsFaults_rewritten (fun name => s!"{type.name}.{name}")
      (fun field hfield => (InputValue.forall_fieldDetails_iff.1 (hkeeps field hfield)).2)
      (List.flatMap_eq_nil_iff.1 hfields)
  | schema roots =>
    rw [hcase] at htype
    refine rootFaults_eq_nil_iff.2 fun kind root hroot => ?_
    exact (isObject_rewritten _).trans (rootFaults_eq_nil_iff.1 htype kind root hroot)

private theorem typeFaults_rewritten {type : TypeDecl} (h : ∀ detail ∈ type.details, r.Keeps schema detail)
    (htype : schema.typeFaults type = []) : (schema.rewritten r).typeFaults (r.type type) = [] := by
  obtain ⟨-, huses, hkeeps⟩ := TypeDecl.forall_details_iff.1 h
  obtain ⟨hname, hdirectives, hbody⟩ := typeFaults_eq_nil_iff.1 htype
  have hlocation : (r.type type).body.location = type.body.location := by
    unfold Rewriting.type
    cases type.body <;> rfl
  refine typeFaults_eq_nil_iff.2 ⟨fun hroots => hname fun roots hcase => ?_, ?_, bodyFaults_rewritten hkeeps hbody⟩
  · exact hroots roots (by simp [Rewriting.type, hcase, Rewriting.body])
  · rw [hlocation]
    exact directivesFaults_rewritten huses hdirectives

private theorem directiveFaults_rewritten {decl : DirectiveDecl} (h : ∀ detail ∈ decl.details, r.Keeps schema detail)
    (hdecl : schema.directiveFaults decl = []) : (schema.rewritten r).directiveFaults (r.directive decl) = [] := by
  obtain ⟨-, -, -, hkeeps⟩ := DirectiveDecl.forall_details_iff.1 h
  obtain ⟨hhead, hargs⟩ := List.append_eq_nil_iff.1 hdecl
  refine List.append_eq_nil_iff.2 ⟨hhead, List.flatMap_eq_nil_iff.2 ?_⟩
  exact inputsFaults_rewritten (fun name => s!"@{decl.name}({name}:)") hkeeps (List.flatMap_eq_nil_iff.1 hargs)

private theorem directiveEdges_rewritten (name : String) :
    (schema.rewritten r).directiveEdges name = schema.directiveEdges name := by
  unfold directiveEdges
  rw [directive?_rewritten]
  cases schema.directive? name with
  | none => rfl
  | some decl =>
    simp [Rewriting.directive, List.flatMap_map, Rewriting.input, Function.comp_def, r.name_use]

private theorem directiveCycleFaults_rewritten {decl : DirectiveDecl} :
    (schema.rewritten r).directiveCycleFaults (r.directive decl) = schema.directiveCycleFaults decl := by
  have hlength : (schema.rewritten r).directives.length = schema.directives.length := List.length_map _
  unfold directiveCycleFaults
  rw [funext directiveEdges_rewritten, hlength]
  rfl

/-- A valid schema stays valid when its literals give way to others that may stand in their places. -/
theorem Valid.rewritten (h : schema.Valid) (hkeeps : ∀ detail ∈ schema.details, r.Keeps schema detail) :
    (schema.rewritten r).Valid where
  distinct := h.distinct.rewritten r
  faults := by
    obtain ⟨htypes, hdirectives, hcycles⟩ := faults_eq_nil_iff.1 h.faults
    obtain ⟨hktypes, hkdirectives⟩ := Schema.forall_details_iff.1 hkeeps
    have hall : (schema.rewritten r).types ++ (schema.rewritten r).declaration.toList =
        (schema.types ++ schema.declaration.toList).map r.type := by
      simp only [Schema.rewritten, List.map_append, Option.toList_map]
    refine faults_eq_nil_iff.2 ⟨?_, ?_, ?_⟩
    · rw [hall]
      exact List.forall_mem_map.2 fun type htype => typeFaults_rewritten (hktypes type htype) (htypes type htype)
    · exact List.forall_mem_map.2 fun decl hdecl =>
        directiveFaults_rewritten (hkdirectives decl hdecl) (hdirectives decl hdecl)
    · exact List.forall_mem_map.2 fun decl hdecl => directiveCycleFaults_rewritten.trans (hcycles decl hdecl)
  resolved := resolved_rewritten h.resolved

end Schema

end GraphQL
