import GraphQL.Proofs.Schema.Literals
import Mathlib.Data.List.Forall2

/-!
# Values in place of literals

A literal can be written as the value of a variable, where the symbols of enums may be spelled as strings
(`Schema.Spells`). Coercion makes the same of both: what it makes of a literal depends on the variables in it only
(`Coercion.coerceIn_of_extends`), and where strings count as symbols it takes no notice of the spelling
(`Coercion.coerceIn_spelled`).
-/

namespace GraphQL

/-! ### Variables in a literal -/

namespace Value

mutual

/-- The variables that are referred to in the value. -/
def varNames : Value → List String
  | var name => [name]
  | list items => itemVarNames items
  | object entries => entryVarNames entries
  | _ => []

/-- The variables that are referred to in the items. -/
def itemVarNames : List Value → List String
  | [] => []
  | v :: rest => varNames v ++ itemVarNames rest

/-- The variables that are referred to in the entries. -/
def entryVarNames : List (String × Value) → List String
  | [] => []
  | (_, v) :: rest => varNames v ++ entryVarNames rest

end

-- by induction on the value, as in `mentionsVar`
mutual

theorem varNames_eq_nil_iff {v : Value} : v.varNames = [] ↔ v.mentionsVar = false := by
  cases v with
  | var name => simp [varNames, mentionsVar]
  | list items =>
    rw [varNames, mentionsVar]
    exact itemVarNames_eq_nil_iff
  | object entries =>
    rw [varNames, mentionsVar]
    exact entryVarNames_eq_nil_iff
  | null | bool _ | int _ | float _ | string _ | enum _ | time _ => simp [varNames, mentionsVar]

private theorem itemVarNames_eq_nil_iff {items : List Value} :
    itemVarNames items = [] ↔ itemsMentionVar items = false := by
  cases items with
  | nil => simp [itemVarNames, itemsMentionVar]
  | cons v rest =>
    rw [itemVarNames, itemsMentionVar, List.append_eq_nil_iff, Bool.or_eq_false_iff, varNames_eq_nil_iff,
      itemVarNames_eq_nil_iff]

private theorem entryVarNames_eq_nil_iff {entries : List (String × Value)} :
    entryVarNames entries = [] ↔ entriesMentionVar entries = false := by
  cases entries with
  | nil => simp [entryVarNames, entriesMentionVar]
  | cons entry rest =>
    obtain ⟨key, v⟩ := entry
    rw [entryVarNames, entriesMentionVar, List.append_eq_nil_iff, Bool.or_eq_false_iff, varNames_eq_nil_iff,
      entryVarNames_eq_nil_iff]

end

end Value

/-! ### Spelling -/

mutual

/-- The second value is the first, save that symbols at places for enums may be spelled as strings. -/
inductive Schema.Spells (schema : Schema) : TypeRef → Value → Value → Prop
  | same (type : TypeRef) (v : Value) : schema.Spells type v v
  | symbol {type : TypeRef} {name symbol : String} {decl : TypeDecl} {values : List EnumValue}
      (hname : type.ownName? = some name) (hdecl : schema.type? name = some decl) (hvalues : decl.body = .enum values) :
      schema.Spells type (.enum symbol) (.string symbol)
  | nonNull {inner : TypeRef} {v v' : Value} (h : schema.Spells inner v v') : schema.Spells (.nonNull inner) v v'
  | list {item : TypeRef} {items items' : List Value} (h : schema.SpellsItems item items items') :
      schema.Spells (.list item) (.list items) (.list items')
  /-- A single value stands for a list of one. -/
  | single {item : TypeRef} {v v' : Value} (hv : ∀ items, v ≠ .list items) (h : schema.Spells item v v') :
      schema.Spells (.list item) v v'
  | object {type : TypeRef} {name : String} {decl : TypeDecl} {fields : List InputValue}
      {entries entries' : List (String × Value)} (hname : type.ownName? = some name)
      (hdecl : schema.type? name = some decl) (hfields : decl.body = .input fields)
      (h : schema.SpellsEntries fields entries entries') : schema.Spells type (.object entries) (.object entries')

/-- The items, of the given type, are spelled one by one. -/
inductive Schema.SpellsItems (schema : Schema) : TypeRef → List Value → List Value → Prop
  | nil {item : TypeRef} : schema.SpellsItems item [] []
  | cons {item : TypeRef} {v v' : Value} {rest rest' : List Value} (h : schema.Spells item v v')
      (hrest : schema.SpellsItems item rest rest') : schema.SpellsItems item (v :: rest) (v' :: rest')

/-- The entries are spelled one by one, each as a value of the type of its field. -/
inductive Schema.SpellsEntries (schema : Schema) : List InputValue → List (String × Value) → List (String × Value) → Prop
  | nil {fields : List InputValue} : schema.SpellsEntries fields [] []
  | field {fields : List InputValue} {key : String} {field : InputValue} {v v' : Value}
      {rest rest' : List (String × Value)} (hfield : Members.get? key fields = some field)
      (h : schema.Spells field.type v v') (hrest : schema.SpellsEntries fields rest rest') :
      schema.SpellsEntries fields ((key, v) :: rest) ((key, v') :: rest')
  | unknown {fields : List InputValue} {key : String} {v : Value} {rest rest' : List (String × Value)}
      (hrest : schema.SpellsEntries fields rest rest') :
      schema.SpellsEntries fields ((key, v) :: rest) ((key, v) :: rest')

end

namespace Coercion

variable {c c' : Coercion} {type : TypeRef} {v v' w : Value}

/-! ### Coercion of spelled values -/

theorem coerceIn_single {item : TypeRef} (hlist : ∀ items, v ≠ .list items) (hnull : v ≠ .null)
    (hvar : ∀ x, v ≠ .var x) : c.coerceIn (.list item) v = (c.coerceIn item v).map fun w => .list [w] := by
  cases v with
  | null => exact absurd rfl hnull
  | var x => exact absurd rfl (hvar x)
  | list items => exact absurd rfl (hlist items)
  | bool _ | int _ | float _ | string _ | enum _ | time _ | object _ =>
    unfold coerceIn
    rfl

/-- What is spelled in another way is neither `null` nor a variable, and not a list unless it was one. -/
private theorem spells_cases {schema : Schema} : ∀ {type : TypeRef} {v v' : Value}, schema.Spells type v v' →
    v' = v ∨ (v ≠ .null ∧ ∀ x, v ≠ .var x) ∧ (v' ≠ .null ∧ ∀ x, v' ≠ .var x) ∧
      ((∀ items, v ≠ .list items) → ∀ items, v' ≠ .list items)
  | _, _, _, .same .. => .inl rfl
  | _, _, _, .symbol .. | _, _, _, .object .. => by simp
  | _, _, _, .list .. => .inr ⟨by simp, by simp, fun h => absurd rfl (h _)⟩
  | _, _, _, .nonNull h | _, _, _, .single _ h => spells_cases h

mutual

/-- Where strings count as symbols it does not matter which symbols are spelled as strings. -/
theorem coerceIn_spelled (htext : c.textSymbols = true) :
    ∀ {type : TypeRef} {v v' : Value}, c.schema.Spells type v v' → c.coerceIn type v' = c.coerceIn type v
  | _, _, _, .same .. => rfl
  | _, _, _, .symbol hname hdecl hvalues => by
    unfold coerceIn
    rw [coerceAs_of_ownName? hname, coerceAs_of_ownName? hname]
    simp [coerceNamed, hdecl, hvalues, coerceSymbol, htext]
  | _, _, _, .nonNull h => by
    have hinner := coerceIn_spelled htext h
    rcases spells_cases h with heq | ⟨⟨hnull, hvar⟩, ⟨hnull', hvar'⟩, -⟩
    · rw [heq]
    · rw [coerceIn_nonNull hnull' (.inr hvar'), coerceIn_nonNull hnull (.inr hvar), hinner]
  | _, _, _, .list h => by rw [coerceIn_list, coerceIn_list, coerceItems_spelled htext h]
  | _, _, _, .single hv h => by
    have hitem := coerceIn_spelled htext h
    rcases spells_cases h with heq | ⟨⟨hnull, hvar⟩, ⟨hnull', hvar'⟩, hlist⟩
    · rw [heq]
    · rw [coerceIn_single (hlist hv) hnull' hvar', coerceIn_single hv hnull hvar, hitem]
  | _, _, _, .object hname hdecl hfields h => by
    rw [coerceIn_object hname hdecl hfields, coerceIn_object hname hdecl hfields, coerceEntries_spelled htext h]

private theorem coerceItems_spelled (htext : c.textSymbols = true) :
    ∀ {item : TypeRef} {items items' : List Value}, c.schema.SpellsItems item items items' →
      c.coerceItems item items' = c.coerceItems item items
  | _, _, _, .nil => rfl
  | _, _, _, .cons h hrest => by
    rw [coerceItems, coerceItems, coerceIn_spelled htext h, coerceItems_spelled htext hrest]

private theorem coerceEntries_spelled (htext : c.textSymbols = true) :
    ∀ {fields : List InputValue} {entries entries' : List (String × Value)},
      c.schema.SpellsEntries fields entries entries' → c.coerceEntries fields entries' = c.coerceEntries fields entries
  | _, _, _, .nil => rfl
  | _, _, _, .field hfield h hrest => by
    rw [coerceEntries, coerceEntries, hfield, coerceEntries_spelled htext hrest]
    dsimp only
    rw [coerceIn_spelled htext h]
  | _, _, _, .unknown hrest => by rw [coerceEntries, coerceEntries, coerceEntries_spelled htext hrest]

end

/-! ### Other variables -/

/-- The second coercion takes the symbols that the first one does, in the same schema. -/
structure Extends (c c' : Coercion) : Prop where
  schema : c'.schema = c.schema
  textSymbols : c.textSymbols = true → c'.textSymbols = true

/-- Variables of the given names stand for the same. -/
def AgreeOn (c c' : Coercion) (names : List String) : Prop :=
  ∀ name ∈ names, ∀ type, c'.coerceVariable name type = c.coerceVariable name type

/-- What the first gives, the second gives too. -/
private def Passes {α : Type} (first second : Except CoercionError α) : Prop := ∀ a, first = .ok a → second = .ok a

private theorem Passes.map {α β : Type} {first second : Except CoercionError α} (h : Passes first second) (f : α → β) :
    Passes (first.map f) (second.map f) := by
  intro b hb
  obtain ⟨a, ha, rfl⟩ := map_eq_ok hb
  rw [h a ha]
  rfl

private theorem coerceAs_passes {items items' : TypeRef → Option (Except CoercionError (List Value))}
    {named named' : String → Except CoercionError Value}
    (hitems : ∀ item, items item = none ∧ items' item = none ∨
      ∃ coerced coerced', items item = some coerced ∧ items' item = some coerced' ∧ Passes coerced coerced')
    (hnamed : ∀ name, Passes (named name) (named' name)) (type : TypeRef) :
    Passes (coerceAs items named type) (coerceAs items' named' type) := by
  induction type with
  | named name | unresolved name _ => exact hnamed name
  | nonNull inner ih => exact ih
  | list item ih =>
    unfold coerceAs
    rcases hitems item with ⟨hnone, hnone'⟩ | ⟨coerced, coerced', hsome, hsome', hpasses⟩
    · rw [hnone, hnone']
      exact ih.map _
    · rw [hsome, hsome']
      exact hpasses.map _

private theorem coerceSymbol_passes (h : c.Extends c') (enum : String) (values : List EnumValue) (v : Value) :
    Passes (c.coerceSymbol enum values v) (c'.coerceSymbol enum values v) := by
  intro w hw
  unfold coerceSymbol at hw ⊢
  cases v with
  | string text =>
    dsimp only at hw ⊢
    split at hw
    · next htext => rwa [if_pos (h.textSymbols htext)]
    · cases hw
  | enum symbol => exact hw
  | null | bool _ | int _ | float _ | var _ | time _ | list _ | object _ => cases hw

/-- Entries of the same keys, of which the second pass where the first do. -/
private def EntriesPass (given given' : List (String × Except CoercionError Value)) : Prop :=
  List.Forall₂ (fun entry entry' => entry'.1 = entry.1 ∧ Passes entry.2 entry'.2) given given'

private theorem get?_entriesPass {given given' : List (String × Except CoercionError Value)} (h : EntriesPass given given')
    (key : String) :
    match Entries.get? key given with
    | none => Entries.get? key given' = none
    | some first => ∃ second, Entries.get? key given' = some second ∧ Passes first second := by
  induction h with
  | nil => rfl
  | @cons entry entry' rest rest' hentry _ ih =>
    obtain ⟨key', first⟩ := entry
    obtain ⟨key'', second⟩ := entry'
    obtain ⟨hkey, hpasses⟩ := hentry
    obtain rfl : key'' = key' := hkey
    rw [Entries.get?, Entries.get?]
    by_cases hsame : key'' = key
    · rw [if_pos hsame, if_pos hsame]
      exact ⟨second, rfl, hpasses⟩
    · rw [if_neg hsame, if_neg hsame]
      exact ih

private theorem inputEntries_passes (input : String) {given given' : List (String × Except CoercionError Value)}
    (h : EntriesPass given given') (fields : List InputValue) :
    Passes (inputEntries input given fields) (inputEntries input given' fields) := by
  induction fields with
  | nil => exact fun _ hw => hw
  | cons field fields ih =>
    have hget := get?_entriesPass h field.name
    unfold inputEntries
    cases hgiven : Entries.get? field.name given with
    | none =>
      rw [hgiven] at hget
      dsimp only at hget
      rw [hget]
      split
      · cases ‹_›
      · cases ‹_›
      · exact ih.map _
      · split
        · exact fun _ => nofun
        · exact ih
    | some first =>
      rw [hgiven] at hget
      obtain ⟨second, hsecond, hpasses⟩ := hget
      rw [hsecond]
      cases first with
      | error reason => exact fun _ => nofun
      | ok w =>
        rw [hpasses w rfl]
        exact ih.map _

private theorem coerceInput_passes (input : String) (fields : List InputValue)
    {given given' : List (String × Except CoercionError Value)} (h : EntriesPass given given') :
    Passes (coerceInput input fields given) (coerceInput input fields given') := by
  have hkeys : Entries.keys given' = Entries.keys given := by
    unfold Entries.keys
    induction h with
    | nil => rfl
    | cons hentry _ ih => rw [List.map_cons, List.map_cons, hentry.1, ih]
  unfold coerceInput
  rw [hkeys]
  split
  · exact fun _ => nofun
  · exact (inputEntries_passes input h fields).map _

private theorem coerceNamed_passes (h : c.Extends c') (v : Value)
    {given given' : Option (List InputValue → List (String × Except CoercionError Value))}
    (hgiven : given = none ∨ ∃ entries entries', given = some entries ∧ given' = some entries' ∧
      ∀ fields, EntriesPass (entries fields) (entries' fields)) (name : String) :
    Passes (c.coerceNamed v given name) (c'.coerceNamed v given' name) := by
  unfold coerceNamed
  rw [h.schema]
  split
  · exact fun _ => nofun
  · next decl _ =>
    split
    · exact fun _ hw => hw
    · exact coerceSymbol_passes h _ _ v
    · rcases hgiven with rfl | ⟨entries, entries', rfl, rfl, hentries⟩
      · exact fun _ => nofun
      · exact coerceInput_passes _ _ (hentries _)
    · exact fun _ => nofun

mutual

private theorem coerceIn_passes (h : c.Extends c') (type : TypeRef) (v : Value) (hv : c.AgreeOn c' v.varNames) :
    Passes (c.coerceIn type v) (c'.coerceIn type v) := by
  cases v with
  | var x =>
    unfold coerceIn
    rw [hv x List.mem_cons_self type]
    exact fun _ hw => hw
  | null =>
    unfold coerceIn
    exact fun _ hw => hw
  | list items =>
    unfold coerceIn
    refine coerceAs_passes (fun item => .inr ⟨_, _, rfl, rfl, ?_⟩) (coerceNamed_passes h _ (.inl rfl)) type
    exact coerceItems_passes h item items hv
  | object entries =>
    unfold coerceIn
    refine coerceAs_passes (fun item => .inl ⟨rfl, rfl⟩) (coerceNamed_passes h _ (.inr ⟨_, _, rfl, rfl, ?_⟩)) type
    exact fun fields => coerceEntries_pass h fields entries hv
  | bool _ | int _ | float _ | string _ | enum _ | time _ =>
    unfold coerceIn
    exact coerceAs_passes (fun item => .inl ⟨rfl, rfl⟩) (coerceNamed_passes h _ (.inl rfl)) type

private theorem coerceItems_passes (h : c.Extends c') (item : TypeRef) (items : List Value)
    (hitems : c.AgreeOn c' (Value.itemVarNames items)) :
    Passes (c.coerceItems item items) (c'.coerceItems item items) := by
  cases items with
  | nil => exact fun _ hw => hw
  | cons v rest =>
    rw [Value.itemVarNames] at hitems
    have hv := coerceIn_passes h item v fun x hx => hitems x (List.mem_append_left _ hx)
    have hrest := coerceItems_passes h item rest fun x hx => hitems x (List.mem_append_right _ hx)
    unfold coerceItems
    cases hcoerced : c.coerceIn item v with
    | error reason => exact fun _ => nofun
    | ok w =>
      rw [hv w hcoerced]
      exact hrest.map _

private theorem coerceEntries_pass (h : c.Extends c') (fields : List InputValue) (entries : List (String × Value))
    (hentries : c.AgreeOn c' (Value.entryVarNames entries)) :
    EntriesPass (c.coerceEntries fields entries) (c'.coerceEntries fields entries) := by
  cases entries with
  | nil => exact .nil
  | cons entry rest =>
    obtain ⟨key, v⟩ := entry
    rw [Value.entryVarNames] at hentries
    have hrest := coerceEntries_pass h fields rest fun x hx => hentries x (List.mem_append_right _ hx)
    unfold coerceEntries
    refine .cons ⟨rfl, ?_⟩ hrest
    dsimp only
    split
    · exact coerceIn_passes h _ v fun x hx => hentries x (List.mem_append_left _ hx)
    · exact fun _ hw => hw

end

/-- What a coercion makes of a literal, every coercion makes of it that takes as many symbols and to which the variables
in the literal mean the same. -/
theorem coerceIn_of_extends (h : c.Extends c') (hv : c.AgreeOn c' v.varNames) (hw : c.coerceIn type v = .ok w) :
    c'.coerceIn type v = .ok w := coerceIn_passes h type v hv w hw

/-! ### Null -/

/-- Only `null` is coerced to `null`. -/
theorem eq_null_of_coerceIn (hvar : ∀ x, v ≠ .var x) (h : c.coerceIn type v = .ok .null) : v = .null := by
  have hnamed {given : Option (List InputValue → List (String × Except CoercionError Value))} {name : String}
      (h : c.coerceNamed v given name = .ok .null) : v = .null := by
    obtain ⟨decl, -, ⟨kind, -, h⟩ | ⟨values, -, h⟩ | ⟨fields, entries, -, -, h⟩⟩ := coerceNamed_eq_ok h
    · exact ScalarKind.eq_null_of_coerceIn h
    · obtain ⟨symbol, hsymbol, -⟩ := coerceSymbol_eq_ok h
      cases hsymbol
    · obtain ⟨entries, hentries, -⟩ := coerceInput_eq_ok h
      cases hentries
  -- a list is never coerced to `null`
  have has {items : TypeRef → Option (Except CoercionError (List Value))} {named : String → Except CoercionError Value}
      (type : TypeRef) (h : coerceAs items named type = .ok .null) : ∃ name, named name = .ok .null := by
    induction type with
    | named name | unresolved name _ => exact ⟨name, h⟩
    | nonNull inner ih => exact ih h
    | list item _ =>
      unfold coerceAs at h
      split at h
      · obtain ⟨_, -, hlist⟩ := map_eq_ok h
        cases hlist
      · obtain ⟨_, -, hlist⟩ := map_eq_ok h
        cases hlist
  cases v with
  | null => rfl
  | var x => exact absurd rfl (hvar x)
  | bool _ | int _ | float _ | string _ | enum _ | time _ | list _ | object _ =>
    unfold coerceIn at h
    obtain ⟨name, hname⟩ := has type h
    exact hnamed hname

end Coercion

end GraphQL
