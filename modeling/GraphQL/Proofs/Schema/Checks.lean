import GraphQL.Proofs.Schema.Alike

/-!
# Faults of schemas that say the same

No check looks at more of a schema than alike schemas share, so that what is valid in one is valid in the other
(`Schema.Alike.faults`). For each check one lemma says so of two things with the same bare form.
-/

namespace GraphQL

namespace Schema.Alike

variable {schema other : Schema}

/-! ### Uses of directives -/

private theorem useArgumentFaults (h : schema.Alike other) (allowVariables : Bool) (use : DirectiveUse) :
    schema.useArgumentFaults allowVariables use = other.useArgumentFaults allowVariables use := by
  funext arg
  unfold Schema.useArgumentFaults
  simp only [h.coerceIn]

private theorem useArgumentsFaults (h : schema.Alike other) (allowVariables : Bool) {decl decl' : DirectiveDecl}
    (hargs : decl.args.map InputValue.bare = decl'.args.map InputValue.bare) (use : DirectiveUse) :
    schema.useArgumentsFaults allowVariables decl use = other.useArgumentsFaults allowVariables decl' use := by
  have hcontains (name : String) : Members.contains name decl.args = Members.contains name decl'.args := by
    rw [← Members.contains_map (f := InputValue.bare) fun _ => rfl, hargs,
      Members.contains_map (f := InputValue.bare) fun _ => rfl]
  have hfaults (schema : Schema) (args : List InputValue) :
      args.flatMap (schema.useArgumentFaults allowVariables use) =
        (args.map InputValue.bare).flatMap (schema.useArgumentFaults allowVariables use) := by
    rw [List.flatMap_map]
    rfl
  unfold Schema.useArgumentsFaults
  simp only [hcontains]
  rw [hfaults schema, hargs, ← hfaults schema, h.useArgumentFaults]

/-- The same is wrong with the use of a directive in alike schemas. -/
theorem useFaults (h : schema.Alike other) (location : DirectiveLocation) (allowVariables : Bool)
    (earlier : List String) (use : DirectiveUse) :
    schema.useFaults location allowVariables earlier use = other.useFaults location allowVariables earlier use := by
  unfold Schema.useFaults
  rcases h.directive? use.name with ⟨hnone, hnone'⟩ | ⟨decl, decl', hdecl, hdecl', hbare⟩
  · rw [hnone, hnone']
  · have hlocations : decl.bare.locations = decl'.bare.locations := congrArg DirectiveDecl.locations hbare
    have hrepeatable : decl.bare.repeatable = decl'.bare.repeatable := congrArg DirectiveDecl.repeatable hbare
    change decl.locations = decl'.locations at hlocations
    change decl.repeatable = decl'.repeatable at hrepeatable
    rw [hdecl, hdecl']
    unfold DirectiveDecl.allows
    dsimp only
    rw [hlocations, hrepeatable, h.useArgumentsFaults allowVariables (congrArg DirectiveDecl.args hbare)]

private theorem usesFaults (h : schema.Alike other) {location : DirectiveLocation} (uses : List DirectiveUse) :
    ∀ {uses' : List DirectiveUse} {earlier : List String},
      uses.map DirectiveUse.unplaced = uses'.map DirectiveUse.unplaced →
        schema.usesFaults location false earlier uses = [] → other.usesFaults location false earlier uses' = [] := by
  induction uses with
  | nil =>
    intro uses' earlier huses _
    rw [List.map_eq_nil_iff.1 huses.symm]
    rfl
  | cons use uses ih =>
    intro uses' earlier huses hfaults
    obtain ⟨use', uses', rfl, huse, hrest⟩ := List.map_eq_cons_iff.1 huses.symm
    obtain ⟨hhere, hlater⟩ := usesFaults_cons_eq_nil_iff.1 hfaults
    have hname : use'.unplaced.name = use.unplaced.name := congrArg DirectiveUse.name huse
    change use'.name = use.name at hname
    refine usesFaults_cons_eq_nil_iff.2 ⟨?_, hname ▸ ih hrest.symm hlater⟩
    -- a use is wrong wherever it stands
    change other.useFaults location false earlier use'.unplaced = []
    rw [huse, ← h.useFaults]
    exact hhere

theorem directivesFaults (h : schema.Alike other) {location : DirectiveLocation} {uses uses' : List DirectiveUse}
    (huses : uses.map DirectiveUse.unplaced = uses'.map DirectiveUse.unplaced)
    (hfaults : schema.directivesFaults location uses = []) : other.directivesFaults location uses' = [] :=
  directivesFaults_eq_nil_iff.2 (h.usesFaults uses huses (directivesFaults_eq_nil_iff.1 hfaults))

/-! ### Arguments and fields -/

private theorem nameFaults_eq_nil {name : String} {builtin : Bool} {pos pos' : Pos}
    (h : nameFaults name builtin pos = []) : nameFaults name builtin pos' = [] := by
  unfold nameFaults at h ⊢
  split at h
  · cases h
  · rfl

private theorem inputFaults (h : schema.Alike other) {what what' : String} {builtin : Bool}
    {location : DirectiveLocation} {value value' : InputValue} (hvalue : value.bare = value'.bare)
    (hfaults : schema.inputFaults what builtin location value = []) :
    other.inputFaults what' builtin location value' = [] := by
  obtain ⟨hname, hinput, hdirectives, hdefault⟩ := inputFaults_eq_nil_iff.1 hfaults
  have hsame : value.bare.name = value'.bare.name := congrArg InputValue.name hvalue
  have htype : value.bare.type = value'.bare.type := congrArg InputValue.type hvalue
  have hdefaults : value.bare.default = value'.bare.default := congrArg InputValue.default hvalue
  change value.name = value'.name at hsame
  change value.type = value'.type at htype
  change value.default = value'.default at hdefaults
  refine inputFaults_eq_nil_iff.2 ⟨hsame ▸ nameFaults_eq_nil hname, ?_, ?_, ?_⟩
  · rw [← htype, ← h.isInput]
    exact hinput
  · exact h.directivesFaults (congrArg InputValue.directives hvalue) hdirectives
  · refine defaultFaults_eq_nil_iff.2 fun v hv => ?_
    exact htype ▸ h.accepts (defaultFaults_eq_nil_iff.1 hdefault v (hdefaults ▸ hv))

private theorem inputsFaults (h : schema.Alike other) (what what' : InputValue → String) {builtin : Bool}
    {location : DirectiveLocation} {args args' : List InputValue}
    (hargs : args.map InputValue.bare = args'.map InputValue.bare)
    (hfaults : ∀ arg ∈ args, schema.inputFaults (what arg) builtin location arg = []) :
    ∀ arg ∈ args', other.inputFaults (what' arg) builtin location arg = [] :=
  forall_mem_of_map_eq hargs (fun _ _ hbare => h.inputFaults hbare) hfaults

private theorem fieldFaults (h : schema.Alike other) {owner owner' : String} {builtin : Bool}
    {field field' : FieldDef} (hfield : field.bare = field'.bare)
    (hfaults : schema.fieldFaults owner builtin field = []) : other.fieldFaults owner' builtin field' = [] := by
  obtain ⟨hname, houtput, hdirectives, hargs⟩ := fieldFaults_eq_nil_iff.1 hfaults
  have hsame : field.bare.name = field'.bare.name := congrArg FieldDef.name hfield
  have htype : field.bare.type = field'.bare.type := congrArg FieldDef.type hfield
  change field.name = field'.name at hsame
  change field.type = field'.type at htype
  refine fieldFaults_eq_nil_iff.2 ⟨hsame ▸ nameFaults_eq_nil hname, ?_, ?_, ?_⟩
  · rw [← htype, ← h.isOutput]
    exact houtput
  · exact h.directivesFaults (congrArg FieldDef.directives hfield) hdirectives
  · exact h.inputsFaults (fun arg => s!"{owner}.{field.name}({arg.name}:)") _ (congrArg FieldDef.args hfield) hargs

/-! ### Interfaces -/

/-- Searches through types that list the same interfaces find the same. -/
private theorem reaches_congr {interface : String} (unvisited : List TypeDecl) (pending : List String) :
    ∀ unvisited' : List TypeDecl, (∀ name, (Members.get? name unvisited).map TypeDecl.interfaces =
      (Members.get? name unvisited').map TypeDecl.interfaces) →
        reaches interface unvisited pending = reaches interface unvisited' pending := by
  induction unvisited, pending using reaches.induct with
  | case1 unvisited =>
    intro unvisited' _
    simp [reaches]
  | case2 unvisited name pending hfound ih =>
    intro unvisited' h
    have hname := h name
    rw [hfound] at hname
    rw [reaches_cons_of_none hfound, reaches_cons_of_none (Option.map_eq_none_iff.1 hname.symm), ih _ h]
  | case3 unvisited name pending decl hfound names ih =>
    intro unvisited' h
    have hname := h name
    rw [hfound] at hname
    obtain ⟨decl', hfound', hsame⟩ := Option.map_eq_some_iff.1 hname.symm
    have herased (other : String) :
        (Members.get? other (Members.erase name unvisited)).map TypeDecl.interfaces =
          (Members.get? other (Members.erase name unvisited')).map TypeDecl.interfaces := by
      rw [Members.get?_erase, Members.get?_erase]
      split
      · rfl
      · exact h other
    rw [reaches_cons_of_some hfound, reaches_cons_of_some hfound', hsame, ih _ herased]

private theorem interfaces_bare (type : TypeDecl) : type.bare.interfaces = type.interfaces := by
  unfold TypeDecl.interfaces TypeDecl.bare
  cases type.body <;> rfl

theorem implements (h : schema.Alike other) (name interface : String) :
    schema.implements name interface = other.implements name interface := by
  refine reaches_congr schema.types [name] other.types fun name => ?_
  rcases h.type? name with ⟨hnone, hnone'⟩ | ⟨decl, decl', hdecl, hdecl', hbare⟩
  · unfold Schema.type? at hnone hnone'
    rw [hnone, hnone']
  · unfold Schema.type? at hdecl hdecl'
    rw [hdecl, hdecl', Option.map_some, Option.map_some, ← interfaces_bare, hbare, interfaces_bare]

private theorem isPossible (h : schema.Alike other) (abstract name : String) :
    schema.isPossible abstract name = other.isPossible abstract name := by
  unfold Schema.isPossible
  rw [h.implements]
  rcases h.type? abstract with ⟨hnone, hnone'⟩ | ⟨decl, decl', hdecl, hdecl', hbare⟩
  · rw [hnone, hnone']
  · have hbody := TypeBody.alike_of_bare (congrArg TypeDecl.body hbare)
    rw [hdecl, hdecl', Option.map_some, Option.map_some]
    generalize decl.body = body, decl'.body = body' at hbody
    cases hbody <;> rfl

theorem isSubtype (h : schema.Alike other) (sub super : TypeRef) :
    schema.isSubtype sub super = other.isSubtype sub super := by
  fun_induction schema.isSubtype sub super <;> simp_all [Schema.isSubtype, h.isPossible]

private theorem get?_bare {fields fields' : List FieldDef} (h : fields.map FieldDef.bare = fields'.map FieldDef.bare)
    {name : String} {field : FieldDef} (hfield : Members.get? name fields = some field) :
    ∃ field', Members.get? name fields' = some field' ∧ field.bare = field'.bare := by
  have hmap : (Members.get? name fields).map FieldDef.bare = (Members.get? name fields').map FieldDef.bare := by
    rw [← Members.get?_map (f := FieldDef.bare) fun _ => rfl, h, Members.get?_map (f := FieldDef.bare) fun _ => rfl]
  rw [hfield] at hmap
  obtain ⟨field', hfield', hbare⟩ := Option.map_eq_some_iff.1 hmap.symm
  exact ⟨field', hfield', hbare.symm⟩

private theorem argumentsFaults {type interface : String} {field field' expected expected' : FieldDef}
    (hfield : field.bare = field'.bare) (hexpected : expected.bare = expected'.bare)
    (hfaults : argumentsFaults type interface field expected = []) :
    Schema.argumentsFaults type interface field' expected' = [] := by
  obtain ⟨hdeclared, hoptional⟩ := argumentsFaults_eq_nil_iff.1 hfaults
  have hargs : field.args.map InputValue.bare = field'.args.map InputValue.bare := congrArg FieldDef.args hfield
  have hexpecteds : expected.args.map InputValue.bare = expected'.args.map InputValue.bare :=
    congrArg FieldDef.args hexpected
  refine argumentsFaults_eq_nil_iff.2 ⟨forall_mem_of_map_eq hexpecteds (fun arg arg' harg hfound => ?_) hdeclared,
    forall_mem_of_map_eq hargs (fun arg arg' harg hrequired hmissing => ?_) hoptional⟩
  · obtain ⟨found, hfound, htype⟩ := hfound
    have hname : arg.bare.name = arg'.bare.name := congrArg InputValue.name harg
    have hsame : arg.bare.type = arg'.bare.type := congrArg InputValue.type harg
    have hfound' := Coercion.type_get? hargs arg.name
    rw [hfound] at hfound'
    obtain ⟨found', hfound', htype'⟩ := Option.map_eq_some_iff.1 hfound'.symm
    exact ⟨found', (show arg.name = arg'.name from hname) ▸ hfound', htype'.trans (htype.trans hsame)⟩
  · have hname : arg.bare.name = arg'.bare.name := congrArg InputValue.name harg
    have hsame : arg.bare.isRequired = arg'.bare.isRequired := congrArg InputValue.isRequired harg
    rw [← Members.contains_map (f := InputValue.bare) fun _ => rfl, ← hexpecteds,
      Members.contains_map (f := InputValue.bare) fun _ => rfl] at hmissing
    exact hsame.symm.trans (hrequired ((show arg.name = arg'.name from hname) ▸ hmissing))

private theorem conformanceFaults (h : schema.Alike other) {type interface : String} {fields fields' : List FieldDef}
    {pos pos' : Pos} {expected expected' : FieldDef} (hfields : fields.map FieldDef.bare = fields'.map FieldDef.bare)
    (hexpected : expected.bare = expected'.bare)
    (hfaults : schema.conformanceFaults type interface fields pos expected = []) :
    other.conformanceFaults type interface fields' pos' expected' = [] := by
  obtain ⟨field, hfield, hsubtype, hargs⟩ := conformanceFaults_eq_nil_iff.1 hfaults
  obtain ⟨field', hfield', hbare⟩ := get?_bare hfields hfield
  have hname : expected.bare.name = expected'.bare.name := congrArg FieldDef.name hexpected
  have hsuper : expected.bare.type = expected'.bare.type := congrArg FieldDef.type hexpected
  have hsub : field.bare.type = field'.bare.type := congrArg FieldDef.type hbare
  change expected.name = expected'.name at hname
  change expected.type = expected'.type at hsuper
  change field.type = field'.type at hsub
  refine conformanceFaults_eq_nil_iff.2 ⟨field', hname ▸ hfield', ?_, argumentsFaults hbare hexpected hargs⟩
  rw [← h.isSubtype, ← hsub, ← hsuper]
  exact hsubtype

private theorem interfaceFaults (h : schema.Alike other) {type : String} {body body' : ObjectBody} {pos pos' : Pos}
    {interface : String} (hbody : body.bare = body'.bare)
    (hfaults : schema.interfaceFaults type body pos interface = []) :
    other.interfaceFaults type body' pos' interface = [] := by
  obtain ⟨hne, hconforms⟩ := interfaceFaults_eq_nil_iff.1 hfaults
  have hlisted : body.bare.interfaces = body'.bare.interfaces := congrArg ObjectBody.interfaces hbody
  change body.interfaces = body'.interfaces at hlisted
  refine interfaceFaults_eq_nil_iff.2 ⟨hne, fun decl' hdecl' => ?_⟩
  rcases h.type? interface with ⟨-, hnone'⟩ | ⟨decl, found, hdecl, hfound, hbare⟩
  · rw [hnone'] at hdecl'
    cases hdecl'
  · cases hfound.symm.trans hdecl'
    obtain ⟨expected, hexpected, hinherited, hfields⟩ := hconforms decl hdecl
    have halike := TypeBody.alike_of_bare (congrArg TypeDecl.body hbare)
    rw [hexpected] at halike
    generalize hcase : decl'.body = found at halike
    cases halike with
    | @interface _ expected' hsame =>
      have hinterfaces : expected.bare.interfaces = expected'.bare.interfaces := congrArg ObjectBody.interfaces hsame
      change expected.interfaces = expected'.interfaces at hinterfaces
      refine ⟨expected', rfl, ?_, ?_⟩
      · rw [← hinterfaces, ← hlisted]
        exact hinherited
      · exact forall_mem_of_map_eq (congrArg ObjectBody.fields hsame)
          (fun _ _ hfield => h.conformanceFaults (congrArg ObjectBody.fields hbody) hfield) hfields

/-! ### Declarations -/

private theorem objectFaults (h : schema.Alike other) {type type' : TypeDecl} {body body' : ObjectBody}
    (hname : type.name = type'.name) (hbuiltin : type.builtin = type'.builtin) (hbody : body.bare = body'.bare)
    (hfaults : schema.objectFaults type body = []) : other.objectFaults type' body' = [] := by
  obtain ⟨hempty, hfields, hinterfaces⟩ := objectFaults_eq_nil_iff.1 hfaults
  have hsame : body.fields.map FieldDef.bare = body'.fields.map FieldDef.bare := congrArg ObjectBody.fields hbody
  have hlisted : body.bare.interfaces = body'.bare.interfaces := congrArg ObjectBody.interfaces hbody
  change body.interfaces = body'.interfaces at hlisted
  refine objectFaults_eq_nil_iff.2 ⟨?_, ?_, ?_⟩
  · rw [← List.isEmpty_map (f := FieldDef.bare), ← hsame, List.isEmpty_map]
    exact hempty
  · rw [← hbuiltin]
    exact forall_mem_of_map_eq hsame (fun _ _ hfield => h.fieldFaults hfield) hfields
  · rw [← hlisted, ← hname]
    exact fun interface hinterface => h.interfaceFaults hbody (hinterfaces interface hinterface)

private theorem bodyFaults (h : schema.Alike other) {type type' : TypeDecl} (htype : type.bare = type'.bare)
    (hfaults : schema.bodyFaults type = []) : other.bodyFaults type' = [] := by
  have hname : type.bare.name = type'.bare.name := congrArg TypeDecl.name htype
  have hbuiltin : type.bare.builtin = type'.bare.builtin := congrArg TypeDecl.builtin htype
  change type.name = type'.name at hname
  change type.builtin = type'.builtin at hbuiltin
  have hbody := TypeBody.alike_of_bare (congrArg TypeDecl.body htype)
  unfold Schema.bodyFaults at hfaults ⊢
  generalize type.body = body, type'.body = body' at hbody hfaults
  cases hbody with
  | scalar kind => rfl
  | object hsame => exact h.objectFaults hname hbuiltin hsame hfaults
  | interface hsame => exact h.objectFaults hname hbuiltin hsame hfaults
  | union members =>
    obtain ⟨hempty, hmembers⟩ := List.append_eq_nil_iff.1 hfaults
    refine List.append_eq_nil_iff.2 ⟨faultIf_eq_nil_iff.2 (faultIf_eq_nil_iff.1 hempty), ?_⟩
    refine List.flatMap_eq_nil_iff.2 fun member hmember => faultIf_eq_nil_iff.2 ?_
    rw [← h.isObject]
    exact faultIf_eq_nil_iff.1 (List.flatMap_eq_nil_iff.1 hmembers member hmember)
  | enum hsame =>
    obtain ⟨hempty, hvalues⟩ := List.append_eq_nil_iff.1 hfaults
    refine List.append_eq_nil_iff.2 ⟨faultIf_eq_nil_iff.2 ?_, List.flatMap_eq_nil_iff.2 ?_⟩
    · rw [← List.isEmpty_map (f := EnumValue.bare), ← hsame, List.isEmpty_map]
      exact faultIf_eq_nil_iff.1 hempty
    · refine forall_mem_of_map_eq hsame (fun value value' hvalue hgood => ?_) (List.flatMap_eq_nil_iff.1 hvalues)
      have hsymbol : value.bare.name = value'.bare.name := congrArg EnumValue.name hvalue
      change value.name = value'.name at hsymbol
      obtain ⟨hreserved, hdirectives⟩ := List.append_eq_nil_iff.1 hgood
      refine List.append_eq_nil_iff.2 ⟨?_, h.directivesFaults (congrArg EnumValue.directives hvalue) hdirectives⟩
      rw [← hsymbol, ← hbuiltin]
      split at hreserved
      · cases hreserved
      · next hother =>
        rw [if_neg hother]
        exact nameFaults_eq_nil hreserved
  | input hsame =>
    obtain ⟨hempty, hfields⟩ := List.append_eq_nil_iff.1 hfaults
    refine List.append_eq_nil_iff.2 ⟨faultIf_eq_nil_iff.2 ?_, List.flatMap_eq_nil_iff.2 ?_⟩
    · rw [← List.isEmpty_map (f := InputValue.bare), ← hsame, List.isEmpty_map]
      exact faultIf_eq_nil_iff.1 hempty
    · rw [← hbuiltin]
      exact h.inputsFaults (fun field => s!"{type.name}.{field.name}") _ hsame (List.flatMap_eq_nil_iff.1 hfields)
  | schema roots =>
    refine rootFaults_eq_nil_iff.2 fun kind root hroot => ?_
    rw [← h.isObject]
    exact rootFaults_eq_nil_iff.1 hfaults kind root hroot

theorem typeFaults (h : schema.Alike other) {type type' : TypeDecl} (htype : type.bare = type'.bare)
    (hfaults : schema.typeFaults type = []) : other.typeFaults type' = [] := by
  obtain ⟨hname, hdirectives, hbody⟩ := typeFaults_eq_nil_iff.1 hfaults
  have hsame : type.bare.name = type'.bare.name := congrArg TypeDecl.name htype
  have hbuiltin : type.bare.builtin = type'.bare.builtin := congrArg TypeDecl.builtin htype
  change type.name = type'.name at hsame
  change type.builtin = type'.builtin at hbuiltin
  have halike := TypeBody.alike_of_bare (congrArg TypeDecl.body htype)
  have hlocation : type.body.location = type'.body.location := by
    generalize type.body = body, type'.body = body' at halike
    cases halike <;> rfl
  refine typeFaults_eq_nil_iff.2 ⟨fun hroots => ?_, ?_, h.bodyFaults htype hbody⟩
  · rw [← hsame, ← hbuiltin]
    refine nameFaults_eq_nil (hname fun roots hcase => ?_)
    rw [hcase] at halike
    generalize hcase' : type'.body = body' at halike
    cases halike
    exact hroots roots hcase'
  · rw [← hlocation]
    exact h.directivesFaults (congrArg TypeDecl.directives htype) hdirectives

private theorem directiveFaults (h : schema.Alike other) {decl decl' : DirectiveDecl} (hdecl : decl.bare = decl'.bare)
    (hfaults : schema.directiveFaults decl = []) : other.directiveFaults decl' = [] := by
  obtain ⟨hhead, hargs⟩ := List.append_eq_nil_iff.1 hfaults
  obtain ⟨hname, hlocations⟩ := List.append_eq_nil_iff.1 hhead
  have hsame : decl.bare.name = decl'.bare.name := congrArg DirectiveDecl.name hdecl
  have hbuiltin : decl.bare.builtin = decl'.bare.builtin := congrArg DirectiveDecl.builtin hdecl
  have hplaces : decl.bare.locations = decl'.bare.locations := congrArg DirectiveDecl.locations hdecl
  change decl.name = decl'.name at hsame
  change decl.builtin = decl'.builtin at hbuiltin
  change decl.locations = decl'.locations at hplaces
  refine List.append_eq_nil_iff.2 ⟨List.append_eq_nil_iff.2 ⟨?_, faultIf_eq_nil_iff.2 ?_⟩, ?_⟩
  · rw [← hsame, ← hbuiltin]
    exact nameFaults_eq_nil hname
  · rw [← hplaces]
    exact faultIf_eq_nil_iff.1 hlocations
  · rw [← hbuiltin]
    exact List.flatMap_eq_nil_iff.2 <|
      h.inputsFaults (fun arg => s!"@{decl.name}({arg.name}:)") _ (congrArg DirectiveDecl.args hdecl)
        (List.flatMap_eq_nil_iff.1 hargs)

private theorem directiveEdges (h : schema.Alike other) : schema.directiveEdges = other.directiveEdges := by
  funext name
  have hedges (args : List InputValue) :
      (args.flatMap fun arg => arg.directives.map fun use => (arg.name, use.name)) =
        (args.map InputValue.bare).flatMap fun arg => arg.directives.map fun use => (arg.name, use.name) := by
    rw [List.flatMap_map]
    refine congrArg (List.flatMap · args) (funext fun arg => ?_)
    exact (List.map_map (g := fun use => (arg.name, use.name)) (f := DirectiveUse.unplaced)).symm
  unfold Schema.directiveEdges
  rcases h.directive? name with ⟨hnone, hnone'⟩ | ⟨decl, decl', hdecl, hdecl', hbare⟩
  · rw [hnone, hnone']
  · have hargs : decl.args.map InputValue.bare = decl'.args.map InputValue.bare := congrArg DirectiveDecl.args hbare
    rw [hdecl, hdecl']
    dsimp only
    rw [hedges, hargs, ← hedges]

private theorem directiveCycleFaults (h : schema.Alike other) {decl decl' : DirectiveDecl}
    (hdecl : decl.bare = decl'.bare) (hfaults : schema.directiveCycleFaults decl = []) :
    other.directiveCycleFaults decl' = [] := by
  have hlength : schema.directives.length = other.directives.length := by simpa using h.directives.length_eq
  have hsame : decl.bare.name = decl'.bare.name := congrArg DirectiveDecl.name hdecl
  change decl.name = decl'.name at hsame
  unfold Schema.directiveCycleFaults at hfaults ⊢
  rw [← h.directiveEdges, ← hlength, ← hsame]
  split at hfaults
  · cases hfaults
  · rfl

private theorem mem_bare {α : Type} {bare : α → α} {members others : List α}
    (h : (members.map bare).Perm (others.map bare)) {a : α} (ha : a ∈ others) : ∃ b ∈ members, bare b = bare a :=
  List.mem_map.1 (h.mem_iff.2 (List.mem_map_of_mem ha))

/-- Nothing is wrong with a schema if nothing is wrong with one that is alike. -/
theorem faults (h : schema.Alike other) (hfaults : schema.faults = []) : other.faults = [] := by
  obtain ⟨htypes, hdirectives, hcycles⟩ := faults_eq_nil_iff.1 hfaults
  refine faults_eq_nil_iff.2 ⟨fun type htype => ?_, fun decl hdecl => ?_, fun decl hdecl => ?_⟩
  · rcases List.mem_append.1 htype with htype | htype
    · obtain ⟨type', htype', hbare⟩ := mem_bare h.types htype
      exact h.typeFaults hbare (htypes type' (List.mem_append_left _ htype'))
    · have hsame := h.declaration
      rw [Option.mem_toList.1 htype] at hsame
      obtain ⟨type', htype', hbare⟩ := Option.map_eq_some_iff.1 hsame
      exact h.typeFaults hbare (htypes type' (List.mem_append_right _ (Option.mem_toList.2 htype')))
  · obtain ⟨decl', hdecl', hbare⟩ := mem_bare h.directives hdecl
    exact h.directiveFaults hbare (hdirectives decl' hdecl')
  · obtain ⟨decl', hdecl', hbare⟩ := mem_bare h.directives hdecl
    exact h.directiveCycleFaults hbare (hcycles decl' hdecl')

end Schema.Alike

end GraphQL
