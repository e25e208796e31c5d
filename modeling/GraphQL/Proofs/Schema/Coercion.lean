import GraphQL.Proofs.Schema.Reachable
import GraphQL.Proofs.Schema.Scalar

/-!
# Values that conform to the types of arguments

`Schema.Admits` says that an argument of a type may have a value. Coercion checks what it is given, but takes some values
as they are: those of variables, which were coerced to the types of the variables, and the defaults of input fields.
`Coercion.unchecked` lists them with the types of their places, and a coerced value is admitted exactly when they are
(`Coercion.admits_iff_unchecked`). The same holds of every property of values that is decided by their parts
(`Coercion.Compositional`, `Coercion.good_iff_unchecked`).
-/

namespace GraphQL

/-- An argument of the type may have the value: `null` where the type allows it, a list of such values, a value that the
scalar coerces to, a symbol of the enum, or an input object of declared fields with all that are required. -/
inductive Schema.Admits (schema : Schema) : TypeRef → Value → Prop
  | null {type : TypeRef} (h : type.isNonNull = false) : schema.Admits type .null
  | nonNull {inner : TypeRef} {v : Value} (h : schema.Admits inner v) (hnull : v ≠ .null) :
      schema.Admits (.nonNull inner) v
  | list {item : TypeRef} {items : List Value} (h : ∀ v ∈ items, schema.Admits item v) :
      schema.Admits (.list item) (.list items)
  | scalar {type : TypeRef} {name : String} {decl : TypeDecl} {kind : ScalarKind} {u v : Value}
      (hname : type.ownName? = some name) (hdecl : schema.type? name = some decl) (hkind : decl.body = .scalar kind)
      (h : kind.coerceIn u = .ok v) : schema.Admits type v
  | enum {type : TypeRef} {name : String} {decl : TypeDecl} {values : List EnumValue} {symbol : String}
      (hname : type.ownName? = some name) (hdecl : schema.type? name = some decl) (hvalues : decl.body = .enum values)
      (h : Members.contains symbol values = true) : schema.Admits type (.enum symbol)
  | input {type : TypeRef} {name : String} {decl : TypeDecl} {fields : List InputValue}
      {entries : List (String × Value)} (hname : type.ownName? = some name) (hdecl : schema.type? name = some decl)
      (hfields : decl.body = .input fields) (hkeys : ∀ key ∈ Entries.keys entries, key ∈ Members.names fields)
      (hrequired : ∀ field ∈ fields, field.isRequired = true → field.name ∈ Entries.keys entries)
      (hvalues : ∀ field ∈ fields, ∀ v, (field.name, v) ∈ entries → schema.Admits field.type v) :
      schema.Admits type (.object entries)

namespace Coercion

/-! ### What is taken unchecked -/

/-- What is taken unchecked into an input object: `given` tells it for the fields that are given. -/
def uncheckedInput (given : List (String × List (TypeRef × Value))) : List InputValue → List (TypeRef × Value)
  | [] => []
  | field :: fields =>
    (match Entries.get? field.name given, field.default with
      | some taken, _ => taken
      | none, some v => [(field.type, v)]
      | none, none => []) ++ uncheckedInput given fields

/-- What is taken unchecked into a value of a named type, where `given` tells it for the entries of an object. -/
def uncheckedNamed (c : Coercion) (given : List InputValue → List (String × List (TypeRef × Value))) (name : String) :
    List (TypeRef × Value) :=
  match (c.schema.type? name).map TypeDecl.body with
  | some (.input fields) => uncheckedInput (given fields) fields
  | _ => []

/-- What is taken unchecked into a value that is neither `null` nor a variable: `items` tells it for a list of a type,
`named` for a named type. -/
def uncheckedAs (items : TypeRef → Option (List (TypeRef × Value))) (named : String → List (TypeRef × Value)) :
    TypeRef → List (TypeRef × Value)
  | .nonNull inner => uncheckedAs items named inner
  | .list item => (items item).getD (uncheckedAs items named item)
  | .named name => named name
  | .unresolved name _ => named name

mutual

/-- The values that the coercion of a value to a type takes as they are, with the types of their places. -/
def unchecked (c : Coercion) (type : TypeRef) : Value → List (TypeRef × Value)
  | .var name => ((c.coerceVariable name type).toOption.map fun v => (type, v)).toList
  | .list items => uncheckedAs (fun item => some (c.uncheckedItems item items)) (fun _ => []) type
  | .object entries => uncheckedAs (fun _ => none) (c.uncheckedNamed (c.uncheckedEntries · entries)) type
  | _ => []

/-- What is taken unchecked into the items of a list. -/
def uncheckedItems (c : Coercion) (item : TypeRef) : List Value → List (TypeRef × Value)
  | [] => []
  | v :: rest => c.unchecked item v ++ c.uncheckedItems item rest

/-- What is taken unchecked into each entry of an object. -/
def uncheckedEntries (c : Coercion) (fields : List InputValue) :
    List (String × Value) → List (String × List (TypeRef × Value))
  | [] => []
  | (key, v) :: rest =>
    let taken :=
      match Members.get? key fields with
      | some field => c.unchecked field.type v
      | none => []
    (key, taken) :: c.uncheckedEntries fields rest

end

end Coercion

namespace Schema

variable {schema : Schema}

theorem Distinct.inputFields (h : schema.Distinct) {decl : TypeDecl} (hdecl : decl ∈ schema.types)
    {fields : List InputValue} (hfields : decl.body = .input fields) : Members.Distinct fields := by
  have htype := h.types decl hdecl
  rw [hfields] at htype
  exact htype

theorem admits_nonNull_iff {inner : TypeRef} {v : Value} (hnull : v ≠ .null) :
    schema.Admits (.nonNull inner) v ↔ schema.Admits inner v := by
  constructor
  · intro h
    cases h with
    | null h => exact absurd rfl hnull
    | nonNull h _ => exact h
    | scalar hname | enum hname | input hname => cases hname
  · exact fun h => .nonNull h hnull

theorem admits_list_iff {item : TypeRef} {items : List Value} :
    schema.Admits (.list item) (.list items) ↔ ∀ v ∈ items, schema.Admits item v := by
  constructor
  · intro h
    cases h with
    | list h => exact h
    | scalar hname => cases hname
  · exact .list

theorem admits_input_iff {type : TypeRef} {name : String} {decl : TypeDecl} {fields : List InputValue}
    {entries : List (String × Value)} (hname : type.ownName? = some name) (hdecl : schema.type? name = some decl)
    (hfields : decl.body = .input fields) (hkeys : ∀ key ∈ Entries.keys entries, key ∈ Members.names fields)
    (hrequired : ∀ field ∈ fields, field.isRequired = true → field.name ∈ Entries.keys entries) :
    schema.Admits type (.object entries) ↔
      ∀ field ∈ fields, ∀ v, (field.name, v) ∈ entries → schema.Admits field.type v := by
  constructor
  · intro h
    cases h with
    | nonNull => cases hname
    | scalar hname' hdecl' hkind =>
      cases hname.symm.trans hname'
      cases hdecl.symm.trans hdecl'
      cases hfields.symm.trans hkind
    | input hname' hdecl' hfields' _ _ hvalues =>
      cases hname.symm.trans hname'
      cases hdecl.symm.trans hdecl'
      cases hfields.symm.trans hfields'
      exact hvalues
  · exact .input hname hdecl hfields hkeys hrequired

/-- All the values are admitted at their places. -/
def AdmitsAll (schema : Schema) (taken : List (TypeRef × Value)) : Prop := ∀ place ∈ taken, schema.Admits place.1 place.2

theorem admitsAll_singleton {type : TypeRef} {v : Value} : schema.AdmitsAll [(type, v)] ↔ schema.Admits type v :=
  List.forall_mem_singleton

end Schema

namespace Coercion

open Schema

variable {c : Coercion}

/-! ### Coercion and what it takes unchecked -/

/-- A property of the values at places of a type that is decided by their parts: every value that a scalar coerces to,
given one from `source`, and every symbol of an enum is good, lists and input objects are good if their parts are. -/
structure Compositional (schema : Schema) (source : Value → Prop) (good : TypeRef → Value → Prop) : Prop where
  items {items : List Value} (h : source (.list items)) : ∀ v ∈ items, source v
  entries {entries : List (String × Value)} (h : source (.object entries)) : ∀ entry ∈ entries, source entry.2
  null {type : TypeRef} (h : type.isNonNull = false) : good type .null
  nonNull {inner : TypeRef} {v : Value} (hnull : v ≠ .null) : good (.nonNull inner) v ↔ good inner v
  list {item : TypeRef} {items : List Value} : good (.list item) (.list items) ↔ ∀ v ∈ items, good item v
  scalar {type : TypeRef} {name : String} {decl : TypeDecl} {kind : ScalarKind} {u v : Value}
    (hname : type.ownName? = some name) (hdecl : schema.type? name = some decl) (hkind : decl.body = .scalar kind)
    (hsource : source u) (hnull : u ≠ .null) (hvar : ∀ x, u ≠ .var x) (h : kind.coerceIn u = .ok v) : good type v
  enum {type : TypeRef} {name : String} {decl : TypeDecl} {values : List EnumValue} {symbol : String}
    (hname : type.ownName? = some name) (hdecl : schema.type? name = some decl) (hvalues : decl.body = .enum values)
    (h : Members.contains symbol values = true) : good type (.enum symbol)
  input {type : TypeRef} {name : String} {decl : TypeDecl} {fields : List InputValue} {entries : List (String × Value)}
    (hname : type.ownName? = some name) (hdecl : schema.type? name = some decl) (hfields : decl.body = .input fields)
    (hdistinct : Members.Distinct fields) (hkeys : (Entries.keys entries).Sublist (Members.names fields))
    (habsent : ∀ field ∈ fields, field.name ∉ Entries.keys entries →
      field.default = none ∧ field.type.isNonNull = false) :
    good type (.object entries) ↔ ∀ field ∈ fields, ∀ v, (field.name, v) ∈ entries → good field.type v

/-- The values are good at their places. -/
def AllGood (good : TypeRef → Value → Prop) (taken : List (TypeRef × Value)) : Prop :=
  ∀ place ∈ taken, good place.1 place.2

section Good

variable {source : Value → Prop} {good : TypeRef → Value → Prop}

private theorem allGood_append {taken more : List (TypeRef × Value)} :
    AllGood good (taken ++ more) ↔ AllGood good taken ∧ AllGood good more := List.forall_mem_append

private theorem allGood_nil : AllGood good [] := fun _ h => absurd h (by simp)

private theorem allGood_singleton {type : TypeRef} {v : Value} : AllGood good [(type, v)] ↔ good type v :=
  List.forall_mem_singleton

/-- What coercion promises at a type: the value is not `null`, and is good if what was taken unchecked is. -/
private def Matches (good : TypeRef → Value → Prop) (type : TypeRef) (taken : List (TypeRef × Value)) (w : Value) :
    Prop :=
  w ≠ .null ∧ (good type w ↔ AllGood good taken)

private theorem matches_of_good {type : TypeRef} {w : Value} (hnull : w ≠ .null) (h : good type w) :
    Matches good type [] w :=
  ⟨hnull, fun _ => allGood_nil, fun _ => h⟩

/-! #### Input objects -/

/-- The entries of an input object and what is taken unchecked into each of them belong together. -/
private def Agrees (good : TypeRef → Value → Prop) (fields : List InputValue)
    (given : List (String × Except CoercionError Value)) (taken : List (String × List (TypeRef × Value))) : Prop :=
  ∀ field ∈ fields,
    match Entries.get? field.name given, Entries.get? field.name taken with
    | some (.ok v), some places => good field.type v ↔ AllGood good places
    | some (.error _), some _ => True
    | none, none => True
    | _, _ => False

/-- The values of the entries are good at the types of their fields. -/
private def EntriesGood (good : TypeRef → Value → Prop) (fields : List InputValue) (entries : List (String × Value)) :
    Prop :=
  ∀ field ∈ fields, ∀ v, (field.name, v) ∈ entries → good field.type v

section EntriesGood

variable {field : InputValue} {fields : List InputValue} {entries : List (String × Value)}

private theorem entriesGood_cons (hname : field.name ∉ Members.names fields)
    (hkeys : (Entries.keys entries).Sublist (Members.names fields)) {v : Value} :
    EntriesGood good (field :: fields) ((field.name, v) :: entries) ↔
      good field.type v ∧ EntriesGood good fields entries := by
  have hnot (w : Value) : (field.name, w) ∉ entries :=
    fun hw => hname (hkeys.subset (Entries.mem_keys_of_mem hw))
  have hne {other : InputValue} (hother : other ∈ fields) : other.name ≠ field.name :=
    fun heq => hname (heq ▸ List.mem_map_of_mem hother)
  constructor
  · intro hall
    refine ⟨hall field List.mem_cons_self v List.mem_cons_self, fun other hother w hw => ?_⟩
    exact hall other (List.mem_cons_of_mem _ hother) w (List.mem_cons_of_mem _ hw)
  · rintro ⟨hhere, hrest⟩ other hother w hw
    rcases List.mem_cons.1 hother with rfl | hother
    · rcases List.mem_cons.1 hw with hw | hw
      · cases hw
        exact hhere
      · exact absurd hw (hnot w)
    · rcases List.mem_cons.1 hw with hw | hw
      · exact absurd (Prod.mk.inj hw).1 (hne hother)
      · exact hrest other hother w hw

private theorem entriesGood_skip (hname : field.name ∉ Members.names fields)
    (hkeys : (Entries.keys entries).Sublist (Members.names fields)) :
    EntriesGood good (field :: fields) entries ↔ EntriesGood good fields entries := by
  constructor
  · exact fun hall other hother => hall other (List.mem_cons_of_mem _ hother)
  · intro hall other hother w hw
    rcases List.mem_cons.1 hother with rfl | hother
    · exact absurd (hkeys.subset (Entries.mem_keys_of_mem hw)) hname
    · exact hall other hother w hw

end EntriesGood

theorem map_eq_ok {ε α β : Type} {f : α → β} {result : Except ε α} {b : β} (h : result.map f = .ok b) :
    ∃ a, result = .ok a ∧ b = f a := by
  cases result with
  | error e => cases h
  | ok a =>
    cases h
    exact ⟨a, rfl, rfl⟩

section Entries

variable {input : String} {given : List (String × Except CoercionError Value)} {field : InputValue}
  {fields : List InputValue} {entries : List (String × Value)}

/-- A field has an entry with what is given for it or else its default, or no entry if neither is there or needed. -/
theorem inputEntries_cons_eq_ok (h : inputEntries input given (field :: fields) = .ok entries) :
    (∃ v rest, entries = (field.name, v) :: rest ∧ inputEntries input given fields = .ok rest ∧
        (Entries.get? field.name given = some (.ok v) ∨
          Entries.get? field.name given = none ∧ field.default = some v)) ∨
      inputEntries input given fields = .ok entries ∧ Entries.get? field.name given = none ∧
        field.default = none ∧ field.type.isNonNull = false := by
  unfold inputEntries at h
  split at h
  · next hgiven =>
    obtain ⟨rest, hrest, rfl⟩ := map_eq_ok h
    exact .inl ⟨_, rest, rfl, hrest, .inl hgiven⟩
  · cases h
  · next hgiven hdefault =>
    obtain ⟨rest, hrest, rfl⟩ := map_eq_ok h
    exact .inl ⟨_, rest, rfl, hrest, .inr ⟨hgiven, hdefault⟩⟩
  · next hgiven hdefault =>
    split at h
    · cases h
    · next hnull => exact .inr ⟨h, hgiven, hdefault, Bool.not_eq_true _ ▸ hnull⟩

/-- The entries come in the order of the fields. -/
theorem inputEntries_keys (h : inputEntries input given fields = .ok entries) :
    (Entries.keys entries).Sublist (Members.names fields) := by
  induction fields generalizing entries with
  | nil =>
    cases h
    exact .slnil
  | cons field fields ih =>
    rcases inputEntries_cons_eq_ok h with ⟨v, rest, rfl, hrest, -⟩ | ⟨hrest, -⟩
    · exact (ih hrest).cons_cons _
    · exact (ih hrest).cons _

/-- A field without an entry has no default, and none is required. -/
theorem inputEntries_absent (h : inputEntries input given fields = .ok entries) (hfield : field ∈ fields)
    (hnot : field.name ∉ Entries.keys entries) : field.default = none ∧ field.type.isNonNull = false := by
  induction fields generalizing entries with
  | nil => cases hfield
  | cons other fields ih =>
    rcases inputEntries_cons_eq_ok h with ⟨v, rest, rfl, hrest, -⟩ | ⟨hrest, -, hdefault, hnull⟩
    · rcases List.mem_cons.1 hfield with rfl | hfield
      · exact absurd List.mem_cons_self hnot
      · exact ih hrest hfield fun hkey => hnot (List.mem_cons_of_mem _ hkey)
    · rcases List.mem_cons.1 hfield with rfl | hfield
      · exact ⟨hdefault, hnull⟩
      · exact ih hrest hfield hnot

end Entries

/-- What is coerced to an input object is one. -/
theorem coerceInput_eq_ok {input : String} {given : List (String × Except CoercionError Value)}
    {fields : List InputValue} {w : Value} (h : coerceInput input fields given = .ok w) :
    ∃ entries, w = .object entries ∧ inputEntries input given fields = .ok entries := by
  unfold coerceInput at h
  split at h
  · cases h
  · obtain ⟨entries, hentries, rfl⟩ := map_eq_ok h
    exact ⟨entries, rfl, hentries⟩

private theorem inputEntries_good {input : String} {given : List (String × Except CoercionError Value)}
    {taken : List (String × List (TypeRef × Value))} (fields : List InputValue) :
    ∀ {entries : List (String × Value)}, Members.Distinct fields → Agrees good fields given taken →
      inputEntries input given fields = .ok entries →
        (EntriesGood good fields entries ↔ AllGood good (uncheckedInput taken fields)) := by
  induction fields with
  | nil => exact fun _ _ _ => ⟨fun _ => allGood_nil, fun _ field hfield => absurd hfield (by simp)⟩
  | cons field fields ih =>
    intro entries hdistinct hagrees h
    obtain ⟨hname, hdistinct⟩ := List.nodup_cons.1 hdistinct
    have hhere := hagrees field List.mem_cons_self
    have hrest {entries : List (String × Value)} (h : inputEntries input given fields = .ok entries) :
        EntriesGood good fields entries ↔ AllGood good (uncheckedInput taken fields) :=
      ih hdistinct (fun other hother => hagrees other (List.mem_cons_of_mem _ hother)) h
    have hnone (hgiven : Entries.get? field.name given = none) : Entries.get? field.name taken = none := by
      cases htaken : Entries.get? field.name taken with
      | none => rfl
      | some places => simp [hgiven, htaken] at hhere
    unfold uncheckedInput
    rw [allGood_append]
    rcases inputEntries_cons_eq_ok h with
      ⟨v, rest, rfl, hentries, hgiven | ⟨hgiven, hdefault⟩⟩ | ⟨hentries, hgiven, hdefault, -⟩
    · rw [entriesGood_cons hname (inputEntries_keys hentries), hrest hentries]
      cases htaken : Entries.get? field.name taken with
      | none => simp [hgiven, htaken] at hhere
      | some places =>
        simp only [hgiven, htaken] at hhere
        rw [hhere]
    · rw [entriesGood_cons hname (inputEntries_keys hentries), hrest hentries, hnone hgiven, hdefault,
        allGood_singleton]
    · rw [entriesGood_skip hname (inputEntries_keys hentries), hrest hentries, hnone hgiven, hdefault]
      exact (and_iff_right allGood_nil).symm

private theorem coerceInput_matches {schema : Schema} (hgood : Compositional schema source good) {type : TypeRef}
    {name : String} {decl : TypeDecl} {fields : List InputValue} (hname : type.ownName? = some name)
    (hdecl : schema.type? name = some decl) (hfields : decl.body = .input fields) (hdistinct : Members.Distinct fields)
    {given : List (String × Except CoercionError Value)} {taken : List (String × List (TypeRef × Value))}
    (hagrees : Agrees good fields given taken) {w : Value} (h : coerceInput decl.name fields given = .ok w) :
    Matches good type (uncheckedInput taken fields) w := by
  obtain ⟨entries, rfl, hentries⟩ := coerceInput_eq_ok h
  refine ⟨nofun, ?_⟩
  rw [hgood.input hname hdecl hfields hdistinct (inputEntries_keys hentries) fun _ => inputEntries_absent hentries]
  exact inputEntries_good fields hdistinct hagrees hentries

/-! #### All values -/

/-- What is coerced to an enum is one of its symbols. -/
theorem coerceSymbol_eq_ok {enum : String} {values : List EnumValue} {v w : Value}
    (h : c.coerceSymbol enum values v = .ok w) :
    ∃ symbol, w = .enum symbol ∧ Members.contains symbol values = true := by
  have hcheck {symbol : String}
      (h : (if Members.contains symbol values then .ok (.enum symbol) else .error (.notInEnum symbol enum)) =
        (.ok w : Except CoercionError Value)) : ∃ symbol, w = .enum symbol ∧ Members.contains symbol values = true := by
    split at h
    · next hmember =>
      cases h
      exact ⟨symbol, rfl, hmember⟩
    · cases h
  unfold coerceSymbol at h
  dsimp only at h
  split at h
  · exact hcheck h
  · split at h
    · exact hcheck h
    · cases h
  · cases h

private theorem coerceSymbol_matches (hgood : Compositional c.schema source good) {type : TypeRef} {name : String}
    {decl : TypeDecl} {values : List EnumValue} (hname : type.ownName? = some name)
    (hdecl : c.schema.type? name = some decl) (hvalues : decl.body = .enum values) {v w : Value}
    (h : c.coerceSymbol decl.name values v = .ok w) : Matches good type [] w := by
  obtain ⟨symbol, rfl, hmember⟩ := coerceSymbol_eq_ok h
  exact matches_of_good nofun (hgood.enum hname hdecl hvalues hmember)

/-- Coercion to a named type is that to a scalar, an enum or an input object. -/
theorem coerceNamed_eq_ok {v w : Value} {name : String}
    {given : Option (List InputValue → List (String × Except CoercionError Value))}
    (h : c.coerceNamed v given name = .ok w) :
    ∃ decl, c.schema.type? name = some decl ∧
      ((∃ kind, decl.body = .scalar kind ∧ kind.coerceIn v = .ok w) ∨
        (∃ values, decl.body = .enum values ∧ c.coerceSymbol decl.name values v = .ok w) ∨
          ∃ fields entries, decl.body = .input fields ∧ given = some entries ∧
            coerceInput decl.name fields (entries fields) = .ok w) := by
  unfold coerceNamed at h
  split at h
  · cases h
  · next decl hdecl =>
    refine ⟨decl, hdecl, ?_⟩
    split at h
    · next kind hkind => exact .inl ⟨kind, hkind, h⟩
    · next values hvalues => exact .inr (.inl ⟨values, hvalues, h⟩)
    · next fields hfields =>
      split at h
      · next entries => exact .inr (.inr ⟨fields, entries, hfields, rfl, h⟩)
      · cases h
    · cases h

private theorem coerceNamed_matches (hgood : Compositional c.schema source good) (hdistinct : c.schema.Distinct)
    {v : Value} (hsource : source v) (hnull : v ≠ .null) (hvar : ∀ x, v ≠ .var x)
    (given : Option (List InputValue → List (String × Except CoercionError Value)))
    (taken : Option (List InputValue → List (String × List (TypeRef × Value))))
    (hagrees : ∀ fields, Members.Distinct fields →
      match given, taken with
      | some given, some taken => Agrees good fields (given fields) (taken fields)
      | none, none => True
      | _, _ => False)
    {type : TypeRef} {name : String} (hname : type.ownName? = some name) {w : Value}
    (h : c.coerceNamed v given name = .ok w) :
    Matches good type ((taken.map (c.uncheckedNamed · name)).getD []) w := by
  obtain ⟨decl, hdecl, hcases⟩ := coerceNamed_eq_ok h
  have htaken (hbody : ∀ fields, decl.body ≠ .input fields) :
      (taken.map (c.uncheckedNamed · name)).getD [] = [] := by
    cases taken with
    | none => rfl
    | some taken =>
      show c.uncheckedNamed taken name = []
      unfold uncheckedNamed
      rw [hdecl]
      cases hbody' : decl.body <;> simp_all
  rcases hcases with ⟨kind, hbody, h⟩ | ⟨values, hbody, h⟩ | ⟨fields, given, hbody, rfl, hinput⟩
  · rw [htaken (by simp [hbody])]
    refine matches_of_good ?_ (hgood.scalar hname hdecl hbody hsource hnull hvar h)
    rintro rfl
    exact hnull (ScalarKind.eq_null_of_coerceIn h)
  · rw [htaken (by simp [hbody])]
    exact coerceSymbol_matches hgood hname hdecl hbody h
  · have hfields : Members.Distinct fields := hdistinct.inputFields (Members.mem_of_get? hdecl) hbody
    have hagrees := hagrees fields hfields
    cases taken with
    | none => exact hagrees.elim
    | some taken =>
      have hnamed : c.uncheckedNamed taken name = uncheckedInput (taken fields) fields := by
        simp [uncheckedNamed, hdecl, hbody]
      show Matches good type (c.uncheckedNamed taken name) w
      rw [hnamed]
      exact coerceInput_matches hgood hname hdecl hbody hfields hagrees hinput

private theorem coerceAs_matches {schema : Schema} (hgood : Compositional schema source good)
    {items : TypeRef → Option (Except CoercionError (List Value))}
    {named : String → Except CoercionError Value} {takenItems : TypeRef → Option (List (TypeRef × Value))}
    {takenNamed : String → List (TypeRef × Value)}
    (hitems : ∀ item,
      match items item, takenItems item with
      | some coerced, some taken => ∀ vs, coerced = .ok vs → ((∀ v ∈ vs, good item v) ↔ AllGood good taken)
      | none, none => True
      | _, _ => False)
    (hnamed : ∀ type name w, TypeRef.ownName? type = some name → named name = .ok w →
      Matches good type (takenNamed name) w) (type : TypeRef) :
    ∀ {w : Value}, coerceAs items named type = .ok w → Matches good type (uncheckedAs takenItems takenNamed type) w := by
  induction type with
  | named name => exact fun h => hnamed _ name _ rfl h
  | unresolved name pos => exact fun h => hnamed _ name _ rfl h
  | nonNull inner ih =>
    intro w h
    obtain ⟨hnull, hiff⟩ := ih h
    exact ⟨hnull, (hgood.nonNull hnull).trans hiff⟩
  | list item ih =>
    intro w h
    have hhere := hitems item
    unfold coerceAs at h
    unfold uncheckedAs
    cases hcoerced : items item with
    | some coerced =>
      cases htaken : takenItems item with
      | none => simp [hcoerced, htaken] at hhere
      | some taken =>
        simp only [hcoerced, htaken] at h hhere
        obtain ⟨vs, hvs, rfl⟩ := map_eq_ok h
        exact ⟨nofun, hgood.list.trans (hhere vs hvs)⟩
    | none =>
      cases htaken : takenItems item with
      | some taken => simp [hcoerced, htaken] at hhere
      | none =>
        simp only [hcoerced] at h
        obtain ⟨v, hv, rfl⟩ := map_eq_ok h
        refine ⟨nofun, hgood.list.trans ?_⟩
        rw [List.forall_mem_singleton]
        exact (ih hv).2

private theorem uncheckedAs_nil (type : TypeRef) : uncheckedAs (fun _ => none) (fun _ => []) type = [] := by
  induction type with
  | named name => rfl
  | unresolved name pos => rfl
  | list item ih => exact ih
  | nonNull inner ih => exact ih

private theorem coerceLeaf_matches (hgood : Compositional c.schema source good) (hdistinct : c.schema.Distinct)
    {v w : Value} {type : TypeRef} (h : coerceAs (fun _ => none) (c.coerceNamed v none) type = .ok w)
    (hsource : source v) (hnull : v ≠ .null) (hvar : ∀ x, v ≠ .var x) : Matches good type [] w := by
  rw [← uncheckedAs_nil type]
  refine coerceAs_matches hgood (fun _ => trivial) (fun type name w hname h => ?_) type h
  exact coerceNamed_matches hgood hdistinct hsource hnull hvar none none (fun _ _ => trivial) hname h

mutual

/-- A coerced value is good exactly when what was taken unchecked is good at its places. -/
theorem good_iff_unchecked (hgood : Compositional c.schema source good) (hdistinct : c.schema.Distinct)
    (type : TypeRef) (v : Value) (hsource : source v) {w : Value} (h : c.coerceIn type v = .ok w) :
    good type w ↔ AllGood good (c.unchecked type v) := by
  cases v with
  | var name =>
    unfold coerceIn at h
    unfold unchecked
    rw [h]
    exact allGood_singleton.symm
  | null =>
    unfold coerceIn at h
    split at h
    · cases h
    · next hnull =>
      cases h
      exact ⟨fun _ => allGood_nil, fun _ => hgood.null (Bool.not_eq_true _ ▸ hnull)⟩
  | list items =>
    unfold coerceIn at h
    unfold unchecked
    refine (coerceAs_matches hgood ?_ ?_ type h).2
    · exact fun item vs hvs => goodItems_iff_unchecked hgood hdistinct item items (hgood.items hsource) hvs
    · exact fun type name w hname h => coerceNamed_matches hgood hdistinct hsource nofun nofun none
        none (fun _ _ => trivial) hname h
  | object entries =>
    unfold coerceIn at h
    unfold unchecked
    refine (coerceAs_matches hgood (fun _ => trivial) (fun type name w hname h => ?_) type h).2
    refine coerceNamed_matches hgood hdistinct hsource nofun nofun (some (c.coerceEntries · entries))
      (some (c.uncheckedEntries · entries)) (fun fields hfields field hfield => ?_) hname h
    exact entries_agree hgood hdistinct hfields hfield entries (hgood.entries hsource)
  | bool _ | int _ | float _ | string _ | enum _ | time _ =>
    unfold coerceIn at h
    unfold unchecked
    exact (coerceLeaf_matches hgood hdistinct h hsource nofun nofun).2

private theorem goodItems_iff_unchecked (hgood : Compositional c.schema source good) (hdistinct : c.schema.Distinct)
    (item : TypeRef) (items : List Value) (hsource : ∀ v ∈ items, source v) {ws : List Value}
    (h : c.coerceItems item items = .ok ws) :
    (∀ w ∈ ws, good item w) ↔ AllGood good (c.uncheckedItems item items) := by
  cases items with
  | nil =>
    unfold coerceItems at h
    cases h
    exact ⟨fun _ => allGood_nil, fun _ _ hw => absurd hw (by simp)⟩
  | cons v rest =>
    unfold coerceItems at h
    unfold uncheckedItems
    cases hv : c.coerceIn item v with
    | error reason =>
      rw [hv] at h
      cases h
    | ok w =>
      rw [hv] at h
      obtain ⟨ws, hws, rfl⟩ := map_eq_ok h
      rw [List.forall_mem_cons, good_iff_unchecked hgood hdistinct item v (hsource v List.mem_cons_self) hv,
        goodItems_iff_unchecked hgood hdistinct item rest (fun u hu => hsource u (List.mem_cons_of_mem _ hu)) hws,
        allGood_append]

private theorem entries_agree (hgood : Compositional c.schema source good) (hdistinct : c.schema.Distinct)
    {fields : List InputValue} (hfields : Members.Distinct fields) {field : InputValue} (hfield : field ∈ fields)
    (entries : List (String × Value)) (hsource : ∀ entry ∈ entries, source entry.2) :
    match Entries.get? field.name (c.coerceEntries fields entries),
      Entries.get? field.name (c.uncheckedEntries fields entries) with
    | some (.ok v), some places => good field.type v ↔ AllGood good places
    | some (.error _), some _ => True
    | none, none => True
    | _, _ => False := by
  cases entries with
  | nil => trivial
  | cons entry rest =>
    obtain ⟨key, v⟩ := entry
    unfold coerceEntries uncheckedEntries
    dsimp only
    unfold Entries.get?
    by_cases hkey : key = field.name
    · subst hkey
      have hget : Members.get? field.name fields = some field := hfields.get?_of_mem hfield
      simp only [↓reduceIte, hget]
      cases hv : c.coerceIn field.type v with
      | error reason => trivial
      | ok w => exact good_iff_unchecked hgood hdistinct field.type v (hsource _ List.mem_cons_self) hv
    · simp only [hkey, ↓reduceIte]
      exact entries_agree hgood hdistinct hfields hfield rest fun entry hentry =>
        hsource entry (List.mem_cons_of_mem _ hentry)

end

end Good

/-! ### Admitted values -/

private theorem admits_compositional (schema : Schema) : Compositional schema (fun _ => True) schema.Admits where
  items := fun _ _ _ => trivial
  entries := fun _ _ _ => trivial
  null := .null
  nonNull := admits_nonNull_iff
  list := admits_list_iff
  scalar := fun hname hdecl hkind _ _ _ h => .scalar hname hdecl hkind h
  enum := .enum
  input := by
    intro type name decl fields entries hname hdecl hfields _ hkeys habsent
    refine admits_input_iff hname hdecl hfields (fun key hkey => hkeys.subset hkey) fun field hfield hrequired => ?_
    apply Classical.byContradiction
    intro hnot
    simp [InputValue.isRequired, habsent field hfield hnot] at hrequired

/-- A coerced value is admitted exactly when what was taken unchecked is admitted at its places. -/
theorem admits_iff_unchecked (hdistinct : c.schema.Distinct) (type : TypeRef) (v : Value) {w : Value}
    (h : c.coerceIn type v = .ok w) : c.schema.Admits type w ↔ c.schema.AdmitsAll (c.unchecked type v) :=
  good_iff_unchecked (admits_compositional c.schema) hdistinct type v trivial h

end Coercion

end GraphQL
