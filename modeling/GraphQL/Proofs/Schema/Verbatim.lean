import GraphQL.Proofs.Schema.Literals

/-!
# Variables in coerced literals

Coercion replaces references to variables by their values. It goes down into the lists and input objects of a literal to
find them, but a custom scalar takes what it is given as it stands (`Schema.Verbatim`), references and all. So a coerced
literal mentions a variable exactly when such a part of the literal does (`Coercion.mentionsVar_coerceIn_iff`).
-/

namespace GraphQL

/-- In the literal of the type the value is a part that a custom scalar takes as it stands. -/
inductive Schema.Verbatim (schema : Schema) : TypeRef → Value → Value → Prop
  | here {type : TypeRef} {name : String} {decl : TypeDecl} {v : Value} (hname : type.ownName? = some name)
      (hdecl : schema.type? name = some decl) (hkind : decl.body = .scalar .any) (hvar : ∀ x, v ≠ .var x) :
      schema.Verbatim type v v
  | nonNull {inner : TypeRef} {v u : Value} (h : schema.Verbatim inner v u) : schema.Verbatim (.nonNull inner) v u
  | item {item : TypeRef} {items : List Value} {v u : Value} (hv : v ∈ items) (h : schema.Verbatim item v u) :
      schema.Verbatim (.list item) (.list items) u
  /-- A single value stands for a list of one. -/
  | single {item : TypeRef} {v u : Value} (hv : ∀ items, v ≠ .list items) (h : schema.Verbatim item v u) :
      schema.Verbatim (.list item) v u
  | field {type : TypeRef} {name : String} {decl : TypeDecl} {fields : List InputValue} {field : InputValue}
      {entries : List (String × Value)} {v u : Value} (hname : type.ownName? = some name)
      (hdecl : schema.type? name = some decl) (hfields : decl.body = .input fields) (hfield : field ∈ fields)
      (hv : Entries.get? field.name entries = some v) (h : schema.Verbatim field.type v u) :
      schema.Verbatim type (.object entries) u

/-! ### Parts that are taken as they stand -/

namespace Schema

variable {schema : Schema} {type item : TypeRef} {name x : String} {decl : TypeDecl} {v u : Value}

theorem not_verbatim_var : ¬ schema.Verbatim type (.var x) u := by
  induction type with
  | named _ | unresolved _ _ =>
    intro h
    cases h with
    | here _ _ _ hvar => exact hvar x rfl
  | nonNull inner ih =>
    intro h
    cases h with
    | here hname => cases hname
    | nonNull h => exact ih h
  | list item ih =>
    intro h
    cases h with
    | here hname => cases hname
    | single _ h => exact ih h

theorem verbatim_nonNull_iff : schema.Verbatim (.nonNull type) v u ↔ schema.Verbatim type v u := by
  constructor
  · intro h
    cases h with
    | here hname | field hname => cases hname
    | nonNull h => exact h
  · exact .nonNull

theorem verbatim_list_iff {items : List Value} :
    schema.Verbatim (.list item) (.list items) u ↔ ∃ v ∈ items, schema.Verbatim item v u := by
  constructor
  · intro h
    cases h with
    | here hname => cases hname
    | item hv h => exact ⟨_, hv, h⟩
    | single hv => exact absurd rfl (hv items)
  · rintro ⟨v, hv, h⟩
    exact .item hv h

theorem verbatim_single_iff (hv : ∀ items, v ≠ .list items) :
    schema.Verbatim (.list item) v u ↔ schema.Verbatim item v u := by
  constructor
  · intro h
    cases h with
    | here hname | field hname => cases hname
    | item => exact absurd rfl (hv _)
    | single _ h => exact h
  · exact .single hv

theorem verbatim_scalar_iff {kind : ScalarKind} (hname : type.ownName? = some name)
    (hdecl : schema.type? name = some decl) (hkind : decl.body = .scalar kind) (hvar : ∀ x, v ≠ .var x) :
    schema.Verbatim type v u ↔ kind = .any ∧ u = v := by
  constructor
  · intro h
    cases h with
    | here hname' hdecl' hkind' =>
      cases hname.symm.trans hname'
      cases hdecl.symm.trans hdecl'
      cases hkind.symm.trans hkind'
      exact ⟨rfl, rfl⟩
    | nonNull | item | single => cases hname
    | field hname' hdecl' hfields =>
      cases hname.symm.trans hname'
      cases hdecl.symm.trans hdecl'
      cases hkind.symm.trans hfields
  · rintro ⟨rfl, rfl⟩
    exact .here hname hdecl hkind hvar

theorem not_verbatim_enum {values : List EnumValue} (hname : type.ownName? = some name)
    (hdecl : schema.type? name = some decl) (hvalues : decl.body = .enum values) : ¬ schema.Verbatim type v u := by
  intro h
  cases h with
  | here hname' hdecl' hbody | field hname' hdecl' hbody =>
    cases hname.symm.trans hname'
    cases hdecl.symm.trans hdecl'
    cases hvalues.symm.trans hbody
  | nonNull | item | single => cases hname

theorem verbatim_object_iff {fields : List InputValue} {entries : List (String × Value)}
    (hname : type.ownName? = some name) (hdecl : schema.type? name = some decl) (hfields : decl.body = .input fields) :
    schema.Verbatim type (.object entries) u ↔
      ∃ field ∈ fields, ∃ v, Entries.get? field.name entries = some v ∧ schema.Verbatim field.type v u := by
  constructor
  · intro h
    cases h with
    | here hname' hdecl' hkind =>
      cases hname.symm.trans hname'
      cases hdecl.symm.trans hdecl'
      cases hfields.symm.trans hkind
    | nonNull | single => cases hname
    | field hname' hdecl' hfields' hfield hv h =>
      cases hname.symm.trans hname'
      cases hdecl.symm.trans hdecl'
      cases hfields.symm.trans hfields'
      exact ⟨_, hfield, _, hv, h⟩
  · rintro ⟨field, hfield, v, hv, h⟩
    exact .field hname hdecl hfields hfield hv h

/-- What is taken as it stands out of a literal without variables mentions none. -/
theorem Verbatim.mentionsVar (h : schema.Verbatim type v u) (hv : v.mentionsVar = false) : u.mentionsVar = false := by
  induction h with
  | here => exact hv
  | nonNull _ ih | single _ _ ih => exact ih hv
  | item hmem _ ih => exact ih (Value.mentionsVar_list.1 hv _ hmem)
  | field _ _ _ _ hmem _ ih => exact ih (Value.mentionsVar_object.1 hv _ (Entries.mem_of_get? hmem))

end Schema

/-! ### What coercion leaves in place -/

/-- Every scalar but a custom one coerces to a leaf. -/
theorem ScalarKind.mentionsVar_of_ne_any {kind : ScalarKind} {u v : Value} (hkind : kind ≠ .any)
    (h : kind.coerceIn u = .ok v) : v.mentionsVar = false := by
  rcases ScalarKind.coerceIn_cases h with rfl | ⟨i, rfl⟩ | ⟨x, rfl⟩ | ⟨text, rfl⟩ | ⟨t, rfl⟩
  · cases kind with
    | any => exact absurd rfl hkind
    | int | int64 | float | boolean | string | id | time => cases v <;> first | rfl | cases h
  all_goals rfl

namespace Coercion

open Schema

/-- The value that a literal was coerced to mentions a variable exactly when a part does that was taken as it stands. -/
private def Keeps (schema : Schema) (type : TypeRef) (v w : Value) : Prop :=
  w.mentionsVar = true ↔ ∃ u, schema.Verbatim type v u ∧ u.mentionsVar = true

/-- What coercion puts into a literal, values of variables and defaults of input fields, mentions no variable. -/
structure Closed (c : Coercion) : Prop where
  distinct : c.schema.Distinct
  defaults : ∀ place, IsDefault c.schema place → place.2.mentionsVar = false
  bound : ∃ values, c.variableValues = some values ∧ ∀ entry ∈ values, entry.2.mentionsVar = false

variable {c : Coercion} {type : TypeRef} {v w : Value}

private theorem keeps_of_constant {schema : Schema} (hw : w.mentionsVar = false)
    (hverbatim : ∀ u, schema.Verbatim type v u → u.mentionsVar = false) : Keeps schema type v w := by
  unfold Keeps
  rw [hw]
  constructor
  · exact nofun
  · rintro ⟨u, hu, hvar⟩
    rw [hverbatim u hu] at hvar
    exact hvar

/-- The entries of a coerced input object mention what those that were given mention, if no default of a field does. -/
private theorem inputEntries_mentionVar {input : String} {given : List (String × Except CoercionError Value)}
    {fields : List InputValue} (hdefaults : ∀ field ∈ fields, ∀ d, field.default = some d → d.mentionsVar = false) :
    ∀ {entries : List (String × Value)}, inputEntries input given fields = .ok entries →
      ((Value.object entries).mentionsVar = true ↔
        ∃ field ∈ fields, ∃ w, Entries.get? field.name given = some (.ok w) ∧ w.mentionsVar = true) := by
  induction fields with
  | nil =>
    intro entries h
    cases h
    simp [Value.mentionsVar, Value.entriesMentionVar]
  | cons field fields ih =>
    intro entries h
    have hrest := @ih fun other hother => hdefaults other (List.mem_cons_of_mem _ hother)
    have hcons (key : String) (w : Value) (entries : List (String × Value)) :
        (Value.object ((key, w) :: entries)).mentionsVar = true ↔
          w.mentionsVar = true ∨ (Value.object entries).mentionsVar = true := by
      simp [Value.mentionsVar, Value.entriesMentionVar]
    simp only [List.mem_cons, exists_eq_or_imp]
    rcases inputEntries_cons_eq_ok h with
      ⟨w, more, rfl, hmore, hgiven | ⟨hgiven, hdefault⟩⟩ | ⟨hmore, hgiven, -⟩
    · rw [hcons, hrest hmore, hgiven]
      simp
    · rw [hcons, hrest hmore, hdefaults field List.mem_cons_self w hdefault, hgiven]
      simp
    · rw [hrest hmore, hgiven]
      simp

private theorem coerceItems_mentionVar {item : TypeRef} {items : List Value} :
    ∀ {ws : List Value}, c.coerceItems item items = .ok ws →
      ((Value.list ws).mentionsVar = true ↔ ∃ v ∈ items, ∃ w, c.coerceIn item v = .ok w ∧ w.mentionsVar = true) := by
  induction items with
  | nil =>
    intro ws h
    cases h
    simp [Value.mentionsVar, Value.itemsMentionVar]
  | cons v rest ih =>
    intro ws h
    unfold coerceItems at h
    cases hv : c.coerceIn item v with
    | error reason =>
      rw [hv] at h
      cases h
    | ok w =>
      rw [hv] at h
      obtain ⟨ws, hws, rfl⟩ := map_eq_ok h
      have hcons : (Value.list (w :: ws)).mentionsVar = true ↔
          w.mentionsVar = true ∨ (Value.list ws).mentionsVar = true := by
        simp [Value.mentionsVar, Value.itemsMentionVar]
      simp only [List.mem_cons, exists_eq_or_imp]
      rw [hcons, ih hws, hv]
      simp

private theorem keeps_input {fields : List InputValue} {entries : List (String × Value)} {name : String}
    {decl : TypeDecl} (hname : type.ownName? = some name) (hdecl : c.schema.type? name = some decl)
    (hfields : decl.body = .input fields) (hdistinct : Members.Distinct fields)
    (hdefaults : ∀ field ∈ fields, ∀ d, field.default = some d → d.mentionsVar = false)
    (hentries : ∀ entry ∈ entries, ∀ type w, c.coerceIn type entry.2 = .ok w → Keeps c.schema type entry.2 w)
    (h : coerceInput decl.name fields (c.coerceEntries fields entries) = .ok w) :
    Keeps c.schema type (.object entries) w := by
  obtain ⟨coerced, rfl, hcoerced⟩ := coerceInput_eq_ok h
  have hgiven {field : InputValue} (hfield : field ∈ fields) :
      (∃ w, Entries.get? field.name (c.coerceEntries fields entries) = some (.ok w) ∧ w.mentionsVar = true) ↔
        ∃ v, Entries.get? field.name entries = some v ∧
          ∃ w, c.coerceIn field.type v = .ok w ∧ w.mentionsVar = true := by
    rw [get?_coerceEntries hdistinct hfield]
    cases Entries.get? field.name entries <;> simp
  unfold Keeps
  rw [inputEntries_mentionVar hdefaults hcoerced]
  constructor
  · rintro ⟨field, hfield, hw⟩
    obtain ⟨v, hv, w, hw, hvar⟩ := (hgiven hfield).1 hw
    obtain ⟨u, hu, hvar⟩ := (hentries _ (Entries.mem_of_get? hv) field.type w hw).1 hvar
    exact ⟨u, .field hname hdecl hfields hfield hv hu, hvar⟩
  · rintro ⟨u, hu, hvar⟩
    obtain ⟨field, hfield, v, hv, hu⟩ := (verbatim_object_iff hname hdecl hfields).1 hu
    -- the object was coerced, so what was given for the field was
    have hget : Entries.get? field.name (c.coerceEntries fields entries) = some (c.coerceIn field.type v) := by
      rw [get?_coerceEntries hdistinct hfield, hv]
      rfl
    obtain ⟨w, hw, -⟩ := inputEntries_given hfield hget hcoerced
    exact ⟨field, hfield, (hgiven hfield).2 ⟨v, hv, w, hw,
      (hentries _ (Entries.mem_of_get? hv) field.type w hw).2 ⟨u, hu, hvar⟩⟩⟩

/-- At a named type, where `given` are the entries if the value is an object: their coercion keeps what it should. -/
private theorem keeps_named (hc : c.Closed) {v : Value} (hvar : ∀ x, v ≠ .var x)
    (given : Option (List InputValue → List (String × Except CoercionError Value)))
    (hgiven : ∀ g, given = some g → ∃ entries, v = .object entries ∧ g = (c.coerceEntries · entries) ∧
      ∀ entry ∈ entries, ∀ type w, c.coerceIn type entry.2 = .ok w → Keeps c.schema type entry.2 w)
    (type : TypeRef) (name : String) (w : Value) (hname : type.ownName? = some name)
    (h : c.coerceNamed v given name = .ok w) : Keeps c.schema type v w := by
  obtain ⟨decl, hdecl, hcases⟩ := coerceNamed_eq_ok h
  rcases hcases with ⟨kind, hbody, h⟩ | ⟨values, hbody, h⟩ | ⟨fields, g, hbody, hg, h⟩
  · unfold Keeps
    simp only [verbatim_scalar_iff hname hdecl hbody hvar]
    by_cases hkind : kind = .any
    · subst hkind
      cases h
      simp
    · simp [hkind, ScalarKind.mentionsVar_of_ne_any hkind h]
  · obtain ⟨symbol, rfl, -⟩ := coerceSymbol_eq_ok h
    exact keeps_of_constant rfl fun u hu => absurd hu (not_verbatim_enum hname hdecl hbody)
  · obtain ⟨entries, rfl, rfl, hentries⟩ := hgiven g hg
    have hmem : decl ∈ c.schema.types := Members.mem_of_get? hdecl
    have hfields := hc.distinct.inputFields hmem hbody
    refine keeps_input hname hdecl hbody hfields (fun field hfield d hd => ?_) hentries h
    exact hc.defaults (field.type, d) ⟨decl, hmem, fields, hbody, field, hfield, rfl, hd⟩

/-- At any type, where `items` is the coercion of the items if the value is a list. -/
private theorem keeps_as {schema : Schema} {items : TypeRef → Option (Except CoercionError (List Value))}
    {named : String → Except CoercionError Value}
    (hitems : ∀ item,
      match items item with
      | some coerced => ∀ ws, coerced = .ok ws → Keeps schema (.list item) v (.list ws)
      | none => ∀ vs, v ≠ .list vs)
    (hnamed : ∀ type name w, TypeRef.ownName? type = some name → named name = .ok w → Keeps schema type v w)
    (type : TypeRef) : ∀ {w : Value}, coerceAs items named type = .ok w → Keeps schema type v w := by
  induction type with
  | named name | unresolved name pos => exact fun h => hnamed _ name _ rfl h
  | nonNull inner ih =>
    intro w h
    unfold Keeps
    simp only [verbatim_nonNull_iff]
    exact ih h
  | list item ih =>
    intro w h
    have hhere := hitems item
    unfold coerceAs at h
    cases hcoerced : items item with
    | some coerced =>
      simp only [hcoerced] at h hhere
      obtain ⟨ws, hws, rfl⟩ := map_eq_ok h
      exact hhere ws hws
    | none =>
      simp only [hcoerced] at h hhere
      obtain ⟨w, hw, rfl⟩ := map_eq_ok h
      have hsingle : (Value.list [w]).mentionsVar = w.mentionsVar := by
        simp [Value.mentionsVar, Value.itemsMentionVar]
      unfold Keeps
      rw [hsingle]
      simp only [verbatim_single_iff hhere]
      exact ih hw

-- by induction on the literal; for each of its forms `keeps_as` takes the type apart
mutual

private theorem coerceIn_keeps (hc : c.Closed) (type : TypeRef) (v : Value) {w : Value}
    (h : c.coerceIn type v = .ok w) : Keeps c.schema type v w := by
  cases v with
  | var x =>
    obtain ⟨values, hvalues, hconstant⟩ := hc.bound
    unfold coerceIn coerceVariable at h
    rw [hvalues] at h
    dsimp only at h
    split at h
    · cases h
    · cases h
      refine keeps_of_constant ?_ fun u hu => absurd hu not_verbatim_var
      cases hget : Entries.get? x values with
      | none => rfl
      | some v => exact hconstant _ (Entries.mem_of_get? hget)
  | null =>
    unfold coerceIn at h
    split at h
    · cases h
    · cases h
      exact keeps_of_constant rfl fun u hu => hu.mentionsVar rfl
  | list items =>
    unfold coerceIn at h
    refine keeps_as ?_ (keeps_named hc (v := .list items) nofun none nofun) type h
    intro item ws hws
    have hitems := itemsCoerceIn_keep hc items
    unfold Keeps
    rw [coerceItems_mentionVar hws]
    simp only [verbatim_list_iff]
    constructor
    · rintro ⟨v, hv, w, hw, hvar⟩
      obtain ⟨u, hu, hvar⟩ := (hitems v hv item w hw).1 hvar
      exact ⟨u, ⟨v, hv, hu⟩, hvar⟩
    · rintro ⟨u, ⟨v, hv, hu⟩, hvar⟩
      obtain ⟨w, hw⟩ := coerceItems_ok_iff.1 ⟨ws, hws⟩ v hv
      exact ⟨v, hv, w, hw, (hitems v hv item w hw).2 ⟨u, hu, hvar⟩⟩
  | object entries =>
    unfold coerceIn at h
    refine keeps_as ?_ (keeps_named hc (v := .object entries) nofun (some _) ?_) type h
    · exact fun _ => nofun
    rintro given ⟨⟩
    exact ⟨entries, rfl, rfl, entriesCoerceIn_keep hc entries⟩
  | bool _ | int _ | float _ | string _ | enum _ | time _ =>
    unfold coerceIn at h
    refine keeps_as ?_ (keeps_named hc ?_ none nofun) type h
    · exact fun _ => nofun
    · exact nofun

private theorem itemsCoerceIn_keep (hc : c.Closed) (items : List Value) :
    ∀ v ∈ items, ∀ type w, c.coerceIn type v = .ok w → Keeps c.schema type v w := by
  cases items with
  | nil => exact fun v hv => absurd hv (by simp)
  | cons first rest =>
    intro v hv type w h
    rcases List.mem_cons.1 hv with heq | hv
    · rw [heq] at h ⊢
      exact coerceIn_keeps hc type first h
    · exact itemsCoerceIn_keep hc rest v hv type w h

private theorem entriesCoerceIn_keep (hc : c.Closed) (entries : List (String × Value)) :
    ∀ entry ∈ entries, ∀ type w, c.coerceIn type entry.2 = .ok w → Keeps c.schema type entry.2 w := by
  cases entries with
  | nil => exact fun entry hentry => absurd hentry (by simp)
  | cons first rest =>
    obtain ⟨key, v⟩ := first
    intro entry hentry type w h
    rcases List.mem_cons.1 hentry with heq | hentry
    · rw [heq] at h ⊢
      exact coerceIn_keeps hc type v h
    · exact entriesCoerceIn_keep hc rest entry hentry type w h

end

/-- A coerced literal mentions a variable exactly when a custom scalar took a part of the literal that mentions one. -/
theorem mentionsVar_coerceIn_iff (hc : c.Closed) (h : c.coerceIn type v = .ok w) :
    w.mentionsVar = true ↔ ∃ u, c.schema.Verbatim type v u ∧ u.mentionsVar = true :=
  coerceIn_keeps hc type v h

/-! ### Literals without variables -/

/-- A literal that mentions no variable is coerced to a value that mentions none. -/
theorem mentionsVar_coerceIn (hdistinct : c.schema.Distinct)
    (hdefaults : ∀ place, IsDefault c.schema place → place.2.mentionsVar = false) (hv : v.mentionsVar = false)
    (h : c.coerceIn type v = .ok w) : w.mentionsVar = false := by
  rw [good_iff_unchecked (constant_compositional c.schema) hdistinct type v hv h]
  exact fun place hplace => hdefaults place (isDefault_of_unchecked type v hv hplace)

end Coercion

end GraphQL
