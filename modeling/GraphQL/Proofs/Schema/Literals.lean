import GraphQL.Proofs.Schema.Coercion
import GraphQL.Proofs.Schema.Validity

/-!
# Coercing twice

A literal that was coerced is left as it is by a second coercion exactly when the defaults that the first one filled in
are (`Schema.settled_iff_unchecked`). In a valid schema it can be coerced again in any case (`Schema.accepts_coerced`).
-/

namespace GraphQL

/-! ### Variables -/

namespace Value

theorem mentionsVar_list {items : List Value} :
    (Value.list items).mentionsVar = false ↔ ∀ v ∈ items, v.mentionsVar = false := by
  rw [mentionsVar]
  induction items with
  | nil => simp [itemsMentionVar]
  | cons v rest ih => simp [itemsMentionVar, ih]

theorem mentionsVar_object {entries : List (String × Value)} :
    (Value.object entries).mentionsVar = false ↔ ∀ entry ∈ entries, entry.2.mentionsVar = false := by
  rw [mentionsVar]
  induction entries with
  | nil => simp [entriesMentionVar]
  | cons entry rest ih =>
    obtain ⟨key, v⟩ := entry
    simp [entriesMentionVar, ih]

end Value

/-! ### Coercion of composed values -/

namespace Coercion

variable {c : Coercion} {type : TypeRef} {name : String} {decl : TypeDecl} {v : Value}

theorem coerceAs_of_ownName? (hname : type.ownName? = some name)
    {items : TypeRef → Option (Except CoercionError (List Value))} {named : String → Except CoercionError Value} :
    coerceAs items named type = named name := by
  cases type with
  | named _ | unresolved _ _ =>
    cases hname
    rfl
  | list _ | nonNull _ => cases hname

theorem coerceIn_nonNull {inner : TypeRef} (hnull : v ≠ .null)
    (hvar : c.variableValues = none ∨ ∀ x, v ≠ .var x) : c.coerceIn (.nonNull inner) v = c.coerceIn inner v := by
  cases v with
  | null => exact absurd rfl hnull
  | var x =>
    rcases hvar with hvariables | hvar
    · simp [coerceIn, coerceVariable, hvariables]
    · exact absurd rfl (hvar x)
  | bool _ | int _ | float _ | string _ | enum _ | time _ | list _ | object _ =>
    unfold coerceIn
    rfl

theorem coerceIn_list {item : TypeRef} {items : List Value} :
    c.coerceIn (.list item) (.list items) = (c.coerceItems item items).map .list := by
  unfold coerceIn
  rfl

theorem coerceIn_scalar {kind : ScalarKind} (hname : type.ownName? = some name)
    (hdecl : c.schema.type? name = some decl)
    (hkind : decl.body = .scalar kind) (hnull : v ≠ .null) (hvar : ∀ x, v ≠ .var x) :
    c.coerceIn type v = kind.coerceIn v := by
  have hnamed (given : Option (List InputValue → List (String × Except CoercionError Value))) :
      c.coerceNamed v given name = kind.coerceIn v := by simp [coerceNamed, hdecl, hkind]
  cases v with
  | null => exact absurd rfl hnull
  | var x => exact absurd rfl (hvar x)
  | bool _ | int _ | float _ | string _ | enum _ | time _ | list _ | object _ =>
    unfold coerceIn
    rw [coerceAs_of_ownName? hname, hnamed]

private theorem coerceIn_scalar_coerced {kind : ScalarKind} {u : Value} (hname : type.ownName? = some name)
    (hdecl : c.schema.type? name = some decl) (hkind : decl.body = .scalar kind) (hnull : u ≠ .null)
    (hvar : ∀ x, u ≠ .var x) (h : kind.coerceIn u = .ok v) : c.coerceIn type v = .ok v := by
  have hnull : v ≠ .null := by
    rintro rfl
    exact hnull (ScalarKind.eq_null_of_coerceIn h)
  have hvar : ∀ x, v ≠ .var x := by
    rintro x rfl
    exact hvar x (ScalarKind.eq_var_of_coerceIn h)
  rw [coerceIn_scalar hname hdecl hkind hnull hvar]
  exact ScalarKind.coerceIn_coerced h

theorem coerceIn_symbol {values : List EnumValue} {symbol : String} (hname : type.ownName? = some name)
    (hdecl : c.schema.type? name = some decl) (hvalues : decl.body = .enum values)
    (h : Members.contains symbol values = true) : c.coerceIn type (.enum symbol) = .ok (.enum symbol) := by
  unfold coerceIn
  rw [coerceAs_of_ownName? hname]
  simp [coerceNamed, hdecl, hvalues, coerceSymbol, h]

theorem coerceIn_object {fields : List InputValue} {entries : List (String × Value)}
    (hname : type.ownName? = some name) (hdecl : c.schema.type? name = some decl)
    (hfields : decl.body = .input fields) :
    c.coerceIn type (.object entries) = coerceInput decl.name fields (c.coerceEntries fields entries) := by
  unfold coerceIn
  rw [coerceAs_of_ownName? hname]
  simp [coerceNamed, hdecl, hfields]

theorem coerceItems_ok_iff {item : TypeRef} {items : List Value} :
    (∃ ws, c.coerceItems item items = .ok ws) ↔ ∀ v ∈ items, ∃ w, c.coerceIn item v = .ok w := by
  induction items with
  | nil => simp [coerceItems]
  | cons v rest ih =>
    rw [List.forall_mem_cons, ← ih, coerceItems]
    cases c.coerceIn item v with
    | error reason => simp
    | ok w => cases c.coerceItems item rest <;> simp [Except.map]

private theorem coerceItems_eq_self_iff {item : TypeRef} {items : List Value} :
    c.coerceItems item items = .ok items ↔ ∀ v ∈ items, c.coerceIn item v = .ok v := by
  induction items with
  | nil => simp [coerceItems]
  | cons v rest ih =>
    rw [List.forall_mem_cons, ← ih, coerceItems]
    cases c.coerceIn item v with
    | error reason => simp
    | ok w => cases c.coerceItems item rest <;> simp [Except.map]

/-! ### Coercion of input objects -/

section Input

variable {input : String} {fields : List InputValue} {entries : List (String × Value)}

/-- The coercion of an entry of an input object. -/
private def coerceEntry (c : Coercion) (fields : List InputValue) (key : String) (v : Value) :
    Except CoercionError Value :=
  match Members.get? key fields with
  | some field => c.coerceIn field.type v
  | none => .ok v

private theorem coerceEntries_eq_map :
    c.coerceEntries fields entries = entries.map fun entry => (entry.1, c.coerceEntry fields entry.1 entry.2) := by
  induction entries with
  | nil => rfl
  | cons entry rest ih =>
    unfold coerceEntries
    rw [ih, List.map_cons]
    rfl

theorem get?_coerceEntries {field : InputValue} (hdistinct : Members.Distinct fields)
    (hfield : field ∈ fields) :
    Entries.get? field.name (c.coerceEntries fields entries) =
      (Entries.get? field.name entries).map (c.coerceIn field.type) := by
  have hget : Members.get? field.name fields = some field := hdistinct.get?_of_mem hfield
  have hentry : c.coerceEntry fields field.name = c.coerceIn field.type := by
    funext v
    simp [coerceEntry, hget]
  rw [coerceEntries_eq_map, Entries.get?_map, hentry]

private theorem inputEntries_congr {given given' : List (String × Except CoercionError Value)}
    (h : ∀ field ∈ fields, Entries.get? field.name given = Entries.get? field.name given') :
    inputEntries input given fields = inputEntries input given' fields := by
  induction fields with
  | nil => rfl
  | cons field fields ih =>
    unfold inputEntries
    rw [h field List.mem_cons_self, ih fun other hother => h other (List.mem_cons_of_mem _ hother)]

/-- What is given for a field was coerced and is among the entries. -/
theorem inputEntries_given {given : List (String × Except CoercionError Value)} {field : InputValue}
    (hfield : field ∈ fields) {result : Except CoercionError Value}
    (hgiven : Entries.get? field.name given = some result) :
    ∀ {entries : List (String × Value)}, inputEntries input given fields = .ok entries →
      ∃ w, result = .ok w ∧ (field.name, w) ∈ entries := by
  induction fields with
  | nil => cases hfield
  | cons other fields ih =>
    intro entries h
    rcases inputEntries_cons_eq_ok h with ⟨v, rest, rfl, hrest, hother⟩ | ⟨hrest, hother, -⟩
    · rcases List.mem_cons.1 hfield with rfl | hfield
      · rw [hgiven] at hother
        rcases hother with hother | ⟨hother, -⟩
        · exact ⟨v, Option.some.inj hother, List.mem_cons_self⟩
        · cases hother
      · exact (ih hfield hrest).imp fun w hw => ⟨hw.1, List.mem_cons_of_mem _ hw.2⟩
    · rcases List.mem_cons.1 hfield with rfl | hfield
      · cases hgiven.symm.trans hother
      · exact ih hfield hrest

/-- Entries in the order of the fields of which each was coerced make up an input object by themselves, if no default
or required field is left out. -/
private theorem inputEntries_of_ok :
    ∀ {entries : List (String × Value)}, Members.Distinct fields → (Entries.keys entries).Sublist (Members.names fields) →
      (∀ field ∈ fields, field.name ∉ Entries.keys entries → field.default = none ∧ field.type.isNonNull = false) →
        inputEntries input (entries.map fun entry => (entry.1, .ok entry.2)) fields = .ok entries := by
  induction fields with
  | nil =>
    intro entries _ hkeys _
    have hnil : entries = [] := by simpa [Entries.keys, Members.names] using hkeys
    rw [hnil]
    rfl
  | cons field fields ih =>
    intro entries hdistinct hkeys habsent
    obtain ⟨hname, hdistinct⟩ : field.name ∉ Members.names fields ∧ Members.Distinct fields :=
      List.nodup_cons.1 hdistinct
    have hget (entries : List (String × Value)) (key : String) :
        Entries.get? key (entries.map fun entry => (entry.1, (.ok entry.2 : Except CoercionError Value))) =
          (Entries.get? key entries).map .ok := Entries.get?_map (f := fun _ v => Except.ok v)
    unfold inputEntries
    rw [hget]
    by_cases hhere : field.name ∈ Entries.keys entries
    · -- the field is the first of those that are there
      obtain ⟨v, rest, rfl⟩ : ∃ v rest, entries = (field.name, v) :: rest := by
        cases entries with
        | nil => cases hhere
        | cons entry rest =>
          obtain ⟨key, v⟩ := entry
          rcases List.sublist_cons_iff.1 hkeys with hkeys | ⟨more, hmore, -⟩
          · exact absurd (hkeys.subset hhere) hname
          · cases hmore
            exact ⟨v, rest, rfl⟩
      have hne {other : InputValue} (hother : other ∈ fields) : other.name ≠ field.name :=
        fun heq => hname (heq ▸ List.mem_map_of_mem hother)
      have hrest : inputEntries input (rest.map fun entry => (entry.1, .ok entry.2)) fields = .ok rest := by
        refine ih hdistinct (List.cons_sublist_cons.1 hkeys) fun other hother hnot => ?_
        refine habsent other (List.mem_cons_of_mem _ hother) fun hmem => ?_
        exact (List.mem_cons.1 hmem).elim (hne hother) hnot
      have hcongr : inputEntries input ((field.name, .ok v) :: rest.map fun entry => (entry.1, .ok entry.2)) fields =
          inputEntries input (rest.map fun entry => (entry.1, .ok entry.2)) fields :=
        inputEntries_congr fun other hother => by simp [Entries.get?, (hne hother).symm]
      simp only [List.map_cons, Entries.get?, ↓reduceIte, Option.map_some, hcongr, hrest]
      rfl
    · obtain ⟨hdefault, hnull⟩ := habsent field List.mem_cons_self hhere
      have hkeys : (Entries.keys entries).Sublist (Members.names fields) := by
        rcases List.sublist_cons_iff.1 hkeys with hkeys | ⟨more, hmore, -⟩
        · exact hkeys
        · exact absurd (hmore ▸ List.mem_cons_self) hhere
      simp only [Entries.get?_eq_none_iff.2 hhere, hdefault, hnull, Option.map_none, Bool.false_eq_true, ↓reduceIte]
      exact ih hdistinct hkeys fun other hother => habsent other (List.mem_cons_of_mem _ hother)

variable {fields : List InputValue}

private theorem coerceIn_object_given (hname : type.ownName? = some name) (hdecl : c.schema.type? name = some decl)
    (hfields : decl.body = .input fields) (hdistinct : Members.Distinct fields)
    (hkeys : (Entries.keys entries).Sublist (Members.names fields)) {w : Value}
    (h : c.coerceIn type (.object entries) = .ok w) {field : InputValue} (hfield : field ∈ fields) {v : Value}
    (hv : (field.name, v) ∈ entries) :
    ∃ coerced u, w = .object coerced ∧ c.coerceIn field.type v = .ok u ∧ (field.name, u) ∈ coerced := by
  rw [coerceIn_object hname hdecl hfields] at h
  obtain ⟨coerced, rfl, hcoerced⟩ := coerceInput_eq_ok h
  have hget : Entries.get? field.name (c.coerceEntries fields entries) = some (c.coerceIn field.type v) := by
    rw [get?_coerceEntries hdistinct hfield, Entries.get?_of_mem (hkeys.nodup hdistinct) hv]
    rfl
  obtain ⟨u, hu, hmem⟩ := inputEntries_given hfield hget hcoerced
  exact ⟨coerced, u, rfl, hu, hmem⟩

private theorem coerceIn_object_of_given (hname : type.ownName? = some name) (hdecl : c.schema.type? name = some decl)
    (hfields : decl.body = .input fields) (hdistinct : Members.Distinct fields)
    (hkeys : (Entries.keys entries).Sublist (Members.names fields))
    (habsent : ∀ field ∈ fields, field.name ∉ Entries.keys entries →
      field.default = none ∧ field.type.isNonNull = false) (coerced : String → Value → Value)
    (h : ∀ field ∈ fields, ∀ v, (field.name, v) ∈ entries → c.coerceIn field.type v = .ok (coerced field.name v)) :
    c.coerceIn type (.object entries) = .ok (.object (entries.map fun entry => (entry.1, coerced entry.1 entry.2))) := by
  -- each entry is found among the fields, since its key is the name of one
  have hentries : c.coerceEntries fields entries =
      (entries.map fun entry => (entry.1, coerced entry.1 entry.2)).map fun entry => (entry.1, .ok entry.2) := by
    rw [coerceEntries_eq_map, List.map_map]
    refine List.map_congr_left fun entry hentry => ?_
    obtain ⟨field, hfield, hfield_name⟩ := List.mem_map.1 (hkeys.subset (List.mem_map_of_mem hentry))
    have hget : Members.get? entry.1 fields = some field := hfield_name ▸ hdistinct.get?_of_mem hfield
    have hcoerced : c.coerceIn field.type entry.2 = .ok (coerced entry.1 entry.2) :=
      hfield_name ▸ h field hfield entry.2 (show (HasName.name field, entry.2) ∈ entries from hfield_name ▸ hentry)
    simp [coerceEntry, hget, hcoerced]
  have hsame : Entries.keys (entries.map fun entry => (entry.1, coerced entry.1 entry.2)) = Entries.keys entries := by
    simp [Entries.keys]
  have hknown : (Entries.keys (c.coerceEntries fields entries)).find? (!Members.contains · fields) = none := by
    rw [List.find?_eq_none, hentries]
    intro key hkey
    have hkey : key ∈ Entries.keys entries := by simpa [Entries.keys] using hkey
    simpa using Members.contains_iff.2 (hkeys.subset hkey)
  rw [coerceIn_object hname hdecl hfields]
  unfold coerceInput
  rw [hknown, hentries]
  simp only
  rw [inputEntries_of_ok hdistinct (hsame ▸ hkeys) (hsame ▸ habsent)]
  rfl

end Input

private theorem coerceVariable_eq_var_iff {x y : String} :
    c.coerceVariable x type = .ok (.var y) ↔
      match c.variableValues with
      | none => x = y
      | some variableValues => (Entries.get? x variableValues).getD .null = .var y := by
  unfold coerceVariable
  cases c.variableValues with
  | none => simp
  | some variableValues =>
    dsimp only
    generalize (Entries.get? x variableValues).getD .null = bound
    cases bound with
    | null => split <;> simp
    | var _ | bool _ | int _ | float _ | string _ | enum _ | time _ | list _ | object _ => simp [Value.isNull]

private theorem fixed_nonNull {inner : TypeRef} (hnull : v ≠ .null) :
    c.coerceIn (.nonNull inner) v = .ok v ↔ c.coerceIn inner v = .ok v := by
  by_cases hvar : ∃ x, v = .var x
  · obtain ⟨x, rfl⟩ := hvar
    unfold coerceIn
    rw [coerceVariable_eq_var_iff, coerceVariable_eq_var_iff]
  · rw [coerceIn_nonNull hnull (.inr fun x hx => hvar ⟨x, hx⟩)]

/-- Being left as it is by coercion is a property that is decided by parts. -/
theorem fixed_compositional (c : Coercion) :
    Compositional c.schema (fun _ => True) fun type v => c.coerceIn type v = .ok v where
  items := fun _ _ _ => trivial
  entries := fun _ _ _ => trivial
  null := fun hnull => by simp [coerceIn, hnull]
  nonNull := fixed_nonNull
  list := by
    intro item items
    rw [coerceIn_list, ← coerceItems_eq_self_iff]
    cases c.coerceItems item items <;> simp [Except.map]
  scalar := fun hname hdecl hkind _ hnull hvar h => coerceIn_scalar_coerced hname hdecl hkind hnull hvar h
  enum := fun hname hdecl hvalues h => coerceIn_symbol hname hdecl hvalues h
  input := by
    intro type name decl fields entries hname hdecl hfields hdistinct hkeys habsent
    constructor
    · intro hfixed field hfield v hv
      obtain ⟨coerced, u, heq, hu, hmem⟩ :=
        coerceIn_object_given hname hdecl hfields hdistinct hkeys hfixed hfield hv
      cases heq
      -- keys are distinct, so what the key was coerced to is what stands under it
      have hnodup := hkeys.nodup hdistinct
      have hsame := (Entries.get?_of_mem hnodup hmem).symm.trans (Entries.get?_of_mem hnodup hv)
      cases hsame
      exact hu
    · intro h
      have hcoerced := coerceIn_object_of_given hname hdecl hfields hdistinct hkeys habsent (fun _ v => v) h
      simpa using hcoerced

end Coercion

/-! ### Literals of a schema -/

namespace Schema

open Coercion

variable {schema : Schema}

/-- Coercion to the type leaves the value as it is. -/
def Settled (schema : Schema) (type : TypeRef) (v : Value) : Prop := schema.coercion.coerceIn type v = .ok v

/-- Mentioning no variable is a property that is decided by parts. -/
theorem constant_compositional (schema : Schema) :
    Compositional schema (fun v => v.mentionsVar = false) fun _ v => v.mentionsVar = false where
  items := Value.mentionsVar_list.1
  entries := Value.mentionsVar_object.1
  null := fun _ => rfl
  nonNull := fun _ => Iff.rfl
  list := Value.mentionsVar_list
  scalar := fun _ _ _ hsource _ _ h => ScalarKind.mentionsVar_coerceIn hsource h
  enum := fun _ _ _ _ => rfl
  input := by
    intro type name decl fields entries _ _ _ _ hkeys _
    rw [Value.mentionsVar_object]
    constructor
    · exact fun h field _ v hv => h _ hv
    · intro h entry hentry
      obtain ⟨field, hfield, hname⟩ := List.mem_map.1 (hkeys.subset (List.mem_map_of_mem hentry))
      exact h field hfield entry.2 (show (HasName.name field, entry.2) ∈ entries from hname ▸ hentry)

private theorem accepts_compositional (schema : Schema) :
    Compositional schema (fun v => v.mentionsVar = false) schema.Accepts where
  items := Value.mentionsVar_list.1
  entries := Value.mentionsVar_object.1
  null := fun hnull => ⟨rfl, .null, by simp [coerceIn, hnull]⟩
  nonNull := fun hnull => by rw [Accepts, Accepts, coerceIn_nonNull hnull (.inl rfl)]
  list := by
    intro item items
    have hiff : (∃ w, schema.coercion.coerceIn (.list item) (.list items) = .ok w) ↔
        ∀ v ∈ items, ∃ w, schema.coercion.coerceIn item v = .ok w := by
      rw [← coerceItems_ok_iff, coerceIn_list]
      cases schema.coercion.coerceItems item items <;> simp [Except.map]
    rw [Accepts, hiff, Value.mentionsVar_list]
    exact ⟨fun h v hv => ⟨h.1 v hv, h.2 v hv⟩, fun h => ⟨fun v hv => (h v hv).1, fun v hv => (h v hv).2⟩⟩
  scalar := fun hname hdecl hkind hsource hnull hvar h =>
    ⟨ScalarKind.mentionsVar_coerceIn hsource h, _, coerceIn_scalar_coerced hname hdecl hkind hnull hvar h⟩
  enum := fun hname hdecl hvalues h => ⟨rfl, _, coerceIn_symbol hname hdecl hvalues h⟩
  input := by
    intro type name decl fields entries hname hdecl hfields hdistinct hkeys habsent
    constructor
    · rintro ⟨hvar, w, hw⟩ field hfield v hv
      obtain ⟨coerced, u, -, hu, -⟩ := coerceIn_object_given hname hdecl hfields hdistinct hkeys hw hfield hv
      exact ⟨Value.mentionsVar_object.1 hvar _ hv, u, hu⟩
    · intro h
      have hconstant := (constant_compositional schema).input hname hdecl hfields hdistinct hkeys habsent
      refine ⟨hconstant.2 fun field hfield v hv => (h field hfield v hv).1, ?_⟩
      -- the values that the entries are coerced to, by the type of the field of the key
      refine ⟨_, coerceIn_object_of_given hname hdecl hfields hdistinct hkeys habsent
        (fun key v => (schema.coercion.coerceEntry fields key v).toOption.getD v) fun field hfield v hv => ?_⟩
      obtain ⟨-, w, hw⟩ := h field hfield v hv
      have hget : Members.get? field.name fields = some field := hdistinct.get?_of_mem hfield
      simp [coerceEntry, hget, hw, Except.toOption]

end Schema

/-! ### What is filled in -/

namespace Coercion

/-- The place is that of an input field of the schema, and the value is its default. -/
def IsDefault (schema : Schema) (place : TypeRef × Value) : Prop :=
  ∃ decl ∈ schema.types, ∃ fields, decl.body = .input fields ∧
    ∃ field ∈ fields, field.type = place.1 ∧ field.default = some place.2

theorem IsDefault.mem_details {schema : Schema} {place : TypeRef × Value} (h : IsDefault schema place) :
    .default place.1 place.2 ∈ schema.details := by
  obtain ⟨decl, hdecl, fields, hbody, field, hfield, htype, hdefault⟩ := h
  exact htype ▸ Schema.fieldDefault_mem_details hdecl hbody hfield hdefault

variable {c : Coercion} {place : TypeRef × Value}

private theorem mem_uncheckedAs {items : TypeRef → Option (List (TypeRef × Value))}
    {named : String → List (TypeRef × Value)} (type : TypeRef) (h : place ∈ uncheckedAs items named type) :
    (∃ item taken, items item = some taken ∧ place ∈ taken) ∨ ∃ name, place ∈ named name := by
  induction type with
  | named name | unresolved name pos => exact .inr ⟨name, h⟩
  | nonNull inner ih => exact ih h
  | list item ih =>
    unfold uncheckedAs at h
    cases hitems : items item with
    | none =>
      rw [hitems] at h
      exact ih h
    | some taken =>
      rw [hitems] at h
      exact .inl ⟨item, taken, hitems, h⟩

private theorem mem_uncheckedInput {given : List (String × List (TypeRef × Value))} (fields : List InputValue)
    (h : place ∈ uncheckedInput given fields) :
    (∃ key taken, (key, taken) ∈ given ∧ place ∈ taken) ∨
      ∃ field ∈ fields, field.type = place.1 ∧ field.default = some place.2 := by
  induction fields with
  | nil => cases h
  | cons field fields ih =>
    unfold uncheckedInput at h
    rcases List.mem_append.1 h with h | h
    · split at h
      · next taken hgiven => exact .inl ⟨field.name, taken, Entries.mem_of_get? hgiven, h⟩
      · next v _ hdefault =>
        obtain rfl := List.mem_singleton.1 h
        exact .inr ⟨field, List.mem_cons_self, rfl, hdefault⟩
      · cases h
    · exact (ih h).imp_right fun ⟨other, hother, hplace⟩ => ⟨other, List.mem_cons_of_mem _ hother, hplace⟩

private theorem mem_uncheckedNamed {given : List InputValue → List (String × List (TypeRef × Value))} {name : String}
    (h : place ∈ c.uncheckedNamed given name) :
    (∃ fields key taken, (key, taken) ∈ given fields ∧ place ∈ taken) ∨ IsDefault c.schema place := by
  unfold uncheckedNamed at h
  split at h
  · next fields hbody =>
    obtain ⟨decl, hdecl, hfields⟩ := Option.map_eq_some_iff.1 hbody
    refine (mem_uncheckedInput fields h).imp (fun ⟨key, taken, hgiven⟩ => ⟨fields, key, taken, hgiven⟩)
      fun hdefault => ?_
    exact ⟨decl, Members.mem_of_get? hdecl, fields, hfields, hdefault⟩
  · cases h

mutual

/-- Without variables only defaults of input fields are taken unchecked. -/
theorem isDefault_of_unchecked (type : TypeRef) (v : Value) (hv : v.mentionsVar = false)
    (h : place ∈ c.unchecked type v) : IsDefault c.schema place := by
  cases v with
  | var name => cases hv
  | list items =>
    unfold unchecked at h
    rcases mem_uncheckedAs type h with ⟨item, taken, heq, h⟩ | ⟨name, h⟩
    · cases heq
      exact isDefault_of_uncheckedItems item items (Value.mentionsVar_list.1 hv) h
    · cases h
  | object entries =>
    unfold unchecked at h
    rcases mem_uncheckedAs type h with ⟨item, taken, heq, h⟩ | ⟨name, h⟩
    · cases heq
    · rcases mem_uncheckedNamed h with ⟨fields, key, taken, htaken, h⟩ | h
      · exact isDefault_of_uncheckedEntries fields entries (Value.mentionsVar_object.1 hv) htaken h
      · exact h
  | null | bool _ | int _ | float _ | string _ | enum _ | time _ =>
    unfold unchecked at h
    cases h

private theorem isDefault_of_uncheckedItems (item : TypeRef) (items : List Value)
    (hitems : ∀ v ∈ items, v.mentionsVar = false) (h : place ∈ c.uncheckedItems item items) :
    IsDefault c.schema place := by
  cases items with
  | nil =>
    unfold uncheckedItems at h
    cases h
  | cons v rest =>
    unfold uncheckedItems at h
    rcases List.mem_append.1 h with h | h
    · exact isDefault_of_unchecked item v (hitems v List.mem_cons_self) h
    · exact isDefault_of_uncheckedItems item rest (fun u hu => hitems u (List.mem_cons_of_mem _ hu)) h

private theorem isDefault_of_uncheckedEntries (fields : List InputValue) (entries : List (String × Value))
    (hentries : ∀ entry ∈ entries, entry.2.mentionsVar = false) {key : String} {taken : List (TypeRef × Value)}
    (htaken : (key, taken) ∈ c.uncheckedEntries fields entries) (h : place ∈ taken) : IsDefault c.schema place := by
  cases entries with
  | nil =>
    unfold uncheckedEntries at htaken
    cases htaken
  | cons entry rest =>
    obtain ⟨other, v⟩ := entry
    unfold uncheckedEntries at htaken
    rcases List.mem_cons.1 htaken with heq | htaken
    · cases heq
      split at h
      · next field _ => exact isDefault_of_unchecked field.type v (hentries _ List.mem_cons_self) h
      · cases h
    · exact isDefault_of_uncheckedEntries fields rest (fun e he => hentries e (List.mem_cons_of_mem _ he)) htaken h

end

end Coercion

namespace Schema

open Coercion

variable {schema : Schema} {type : TypeRef} {v w : Value}

/-- If the defaults of input fields can be coerced, then every coerced literal can be coerced again. -/
theorem accepts_coerced (hdistinct : schema.Distinct)
    (hdefaults : ∀ place, IsDefault schema place → schema.Accepts place.1 place.2) (hv : v.mentionsVar = false)
    (h : schema.coercion.coerceIn type v = .ok w) : schema.Accepts type w := by
  rw [good_iff_unchecked (accepts_compositional schema) hdistinct type v hv h]
  exact fun place hplace => hdefaults place (isDefault_of_unchecked type v hv hplace)

/-- Scalars, enums and the fields of input objects are the same in normal form. -/
private theorem compositional_of_normal {source : Value → Prop} {good : TypeRef → Value → Prop}
    (h : Compositional schema.normal source good) : Compositional schema source good := by
  have htype {name : String} {decl : TypeDecl} (hdecl : schema.type? name = some decl) :
      schema.normal.type? name = some (schema.coercion.normalType decl) := by
    rw [type?_normal, hdecl]
    rfl
  have hbody {decl : TypeDecl} {body : TypeBody} (hdecl : decl.body = body) :
      (schema.coercion.normalType decl).body = schema.coercion.normalBody body := by
    simp only [normalType, hdecl]
  have hcontains (symbol : String) (values : List EnumValue) :
      Members.contains symbol (values.map schema.coercion.normalSymbol) = Members.contains symbol values :=
    Members.contains_map fun _ => rfl
  exact {
    items := h.items
    entries := h.entries
    null := h.null
    nonNull := h.nonNull
    list := h.list
    scalar := fun hname hdecl hkind => h.scalar hname (htype hdecl) (hbody hkind)
    enum := fun hname hdecl hvalues hsymbol =>
      h.enum hname (htype hdecl) (hbody hvalues) ((hcontains _ _).trans hsymbol)
    input := by
      intro type name decl fields entries hname hdecl hfields hdistinct hkeys habsent
      have hnames : Members.names (fields.map schema.coercion.normalInput) = Members.names fields := by
        rw [Members.names, List.map_map]
        rfl
      rw [h.input hname (htype hdecl) (hbody hfields) (hdistinct.map fun _ => rfl) (hnames ▸ hkeys)]
      · exact List.forall_mem_map
      · rw [List.forall_mem_map]
        intro field hfield hnot
        obtain ⟨hdefault, hnull⟩ := habsent field hfield hnot
        exact ⟨by simp [normalInput, hdefault], hnull⟩ }

/-- In the normal form of the schema a coerced literal is left as it is exactly when everything that was taken
unchecked is. -/
theorem settled_iff_unchecked (hdistinct : schema.Distinct) (h : schema.coercion.coerceIn type v = .ok w) :
    schema.normal.Settled type w ↔ AllGood schema.normal.Settled (schema.coercion.unchecked type v) := by
  have hfixed : Compositional schema.normal (fun _ => True) schema.normal.Settled :=
    fixed_compositional schema.normal.coercion
  exact good_iff_unchecked (compositional_of_normal hfixed) hdistinct type v trivial h

end Schema

end GraphQL
