import GraphQL.Proofs.Schema.Internal
import GraphQL.Proofs.Value.Reader

/-!
# Literals that are written and read

A literal of a schema is kept by a text if what it reads as is coerced to it again (`Schema.ReadsBack`). Nothing is filled
in then, since what is read has the keys that were written. So it does not matter to that coercion which literals the
schema has elsewhere (`Coercion.coerceIn_reread`).
-/

namespace GraphQL

/-! ### What literals read as -/

namespace Value

private theorem reread_list {items : List Value} {u : Value} (h : (Value.list items).reread = some u) :
    ∃ read, u = .list read ∧ rereadItems items = some read := by
  simp only [reread] at h
  obtain ⟨read, hread, rfl⟩ := Option.map_eq_some_iff.1 h
  exact ⟨read, rfl, hread⟩

private theorem reread_object {entries : List (String × Value)} {u : Value} (h : (Value.object entries).reread = some u) :
    ∃ read, u = .object read ∧ rereadEntries entries = some read := by
  simp only [reread] at h
  obtain ⟨read, hread, rfl⟩ := Option.map_eq_some_iff.1 h
  exact ⟨read, rfl, hread⟩

private theorem rereadItems_cons {v : Value} {rest read : List Value} (h : rereadItems (v :: rest) = some read) :
    ∃ w more, read = w :: more ∧ v.reread = some w ∧ rereadItems rest = some more := by
  simp only [rereadItems] at h
  obtain ⟨w, hw, h⟩ := Option.bind_eq_some_iff.1 h
  obtain ⟨more, hmore, rfl⟩ := Option.map_eq_some_iff.1 h
  exact ⟨w, more, rfl, hw, hmore⟩

private theorem rereadEntries_cons {key : String} {v : Value} {rest read : List (String × Value)}
    (h : rereadEntries ((key, v) :: rest) = some read) :
    ∃ w more, read = (key, w) :: more ∧ v.reread = some w ∧ rereadEntries rest = some more := by
  simp only [rereadEntries] at h
  obtain ⟨w, hw, h⟩ := Option.bind_eq_some_iff.1 h
  obtain ⟨more, hmore, rfl⟩ := Option.map_eq_some_iff.1 h
  exact ⟨w, more, rfl, hw, hmore⟩

/-- A key is read where it was written, with what its value reads as. -/
private theorem get?_rereadEntries (key : String) {entries : List (String × Value)} :
    ∀ {read : List (String × Value)}, rereadEntries entries = some read →
      Entries.get? key read = (Entries.get? key entries).bind reread := by
  induction entries with
  | nil =>
    intro read h
    simp only [rereadEntries, Option.some.injEq] at h
    rw [← h]
    rfl
  | cons entry rest ih =>
    obtain ⟨other, v⟩ := entry
    intro read h
    obtain ⟨w, more, rfl, hw, hmore⟩ := rereadEntries_cons h
    by_cases hkey : other = key
    · simp [Entries.get?, hkey, hw]
    · simp [Entries.get?, hkey, ih hmore]

private theorem keys_rereadEntries {entries : List (String × Value)} :
    ∀ {read : List (String × Value)}, rereadEntries entries = some read → Entries.keys read = Entries.keys entries := by
  induction entries with
  | nil =>
    intro read h
    simp only [rereadEntries, Option.some.injEq] at h
    rw [← h]
  | cons entry rest ih =>
    intro read h
    obtain ⟨w, more, rfl, -, hmore⟩ := rereadEntries_cons h
    exact congrArg (entry.1 :: ·) (ih hmore)

/-- A double reads as a number or a word. -/
private theorem rereadFloat_isLeaf {x : Binary64} {u : Value} (h : rereadFloat x = some u) :
    u.isAtom = true ∨ ∃ symbol, u = .enum symbol := by
  unfold rereadFloat at h
  split at h
  · exact .inl (Parser.numberValue?_isAtom h)
  · cases h
    exact .inr ⟨_, rfl⟩
  · cases h
  · cases h
    exact .inr ⟨_, rfl⟩

mutual

/-- Variables are written and read as such. -/
theorem mentionsVar_reread (v : Value) {u : Value} (h : v.reread = some u) : u.mentionsVar = v.mentionsVar := by
  cases v with
  | list items =>
    obtain ⟨read, rfl, hread⟩ := reread_list h
    simp only [mentionsVar]
    exact itemsMentionVar_reread items hread
  | object entries =>
    obtain ⟨read, rfl, hread⟩ := reread_object h
    simp only [mentionsVar]
    exact entriesMentionVar_reread entries hread
  | float x =>
    simp only [reread] at h
    rcases rereadFloat_isLeaf h with hatom | ⟨symbol, rfl⟩
    · cases u <;> first | rfl | cases hatom
    · rfl
  | null | bool _ | int _ | string _ | enum _ | var _ | time _ =>
    simp only [reread, Option.some.injEq] at h
    subst h
    rfl

private theorem itemsMentionVar_reread (items : List Value) {read : List Value} (h : rereadItems items = some read) :
    itemsMentionVar read = itemsMentionVar items := by
  cases items with
  | nil =>
    simp only [rereadItems, Option.some.injEq] at h
    rw [← h]
  | cons v rest =>
    obtain ⟨w, more, rfl, hw, hmore⟩ := rereadItems_cons h
    simp only [itemsMentionVar, mentionsVar_reread v hw, itemsMentionVar_reread rest hmore]

private theorem entriesMentionVar_reread (entries : List (String × Value)) {read : List (String × Value)}
    (h : rereadEntries entries = some read) : entriesMentionVar read = entriesMentionVar entries := by
  cases entries with
  | nil =>
    simp only [rereadEntries, Option.some.injEq] at h
    rw [← h]
  | cons entry rest =>
    obtain ⟨key, v⟩ := entry
    obtain ⟨w, more, rfl, hw, hmore⟩ := rereadEntries_cons h
    simp only [entriesMentionVar, mentionsVar_reread v hw, entriesMentionVar_reread rest hmore]

end

end Value

/-! ### Coercion of what is read -/

namespace Coercion

variable {c : Coercion} {r : Rewriting}

private theorem coerceAs_congr {items items' : TypeRef → Option (Except CoercionError (List Value))}
    {named named' : String → Except CoercionError Value} {v : Value}
    (hitems : ∀ item ws, v = .list ws → items item = some (.ok ws) → items' item = some (.ok ws))
    (hsingle : ∀ item, items item = none → ∀ w, v ≠ .list [w])
    (hnamed : ∀ name, named name = .ok v → named' name = .ok v) (type : TypeRef)
    (h : coerceAs items named type = .ok v) : coerceAs items' named' type = .ok v := by
  induction type with
  | named name | unresolved name pos => exact hnamed name h
  | nonNull inner ih => exact ih h
  | list item _ =>
    unfold coerceAs at h ⊢
    cases hitem : items item with
    | none =>
      rw [hitem] at h
      obtain ⟨w, -, rfl⟩ := map_eq_ok h
      exact absurd rfl (hsingle item hitem w)
    | some result =>
      rw [hitem] at h
      obtain ⟨ws, rfl, rfl⟩ := map_eq_ok h
      rw [hitems item ws rfl hitem]
      rfl

/-- Entries for all fields that have a default are put together whatever the defaults are. -/
private theorem inputEntries_rewritten {input : String} {given given' : List (String × Except CoercionError Value)}
    {fields : List InputValue} :
    ∀ {entries : List (String × Value)}, inputEntries input given fields = .ok entries →
      (∀ field ∈ fields, ∀ w, Entries.get? field.name given = some (.ok w) →
        Entries.get? field.name given' = some (.ok w)) →
      (∀ field ∈ fields, Entries.get? field.name given = none →
        Entries.get? field.name given' = none ∧ field.default = none) →
      inputEntries input given' (fields.map r.input) = .ok entries := by
  induction fields with
  | nil => exact fun h _ _ => h
  | cons field fields ih =>
    intro entries h hgiven hnone
    obtain ⟨hhere, hgiven⟩ := List.forall_mem_cons.1 hgiven
    obtain ⟨hnoneHere, hnone⟩ := List.forall_mem_cons.1 hnone
    rw [List.map_cons]
    unfold inputEntries
    rcases inputEntries_cons_eq_ok h with ⟨v, rest, rfl, hrest, hv | ⟨hv, hdefault⟩⟩ | ⟨hrest, hv, hdefault, hnull⟩
    · simp only [show Entries.get? (r.input field).name given' = some (.ok v) from hhere v hv]
      rw [ih hrest hgiven hnone]
      rfl
    · rw [(hnoneHere hv).2] at hdefault
      cases hdefault
    · simp only [show Entries.get? (r.input field).name given' = none from (hnoneHere hv).1,
        show (r.input field).default = none by simp [Rewriting.input, hdefault]]
      rw [show (r.input field).type.isNonNull = false from hnull]
      exact ih hrest hgiven hnone

private theorem keys_coerceEntries {fields : List InputValue} (entries : List (String × Value)) :
    Entries.keys (c.coerceEntries fields entries) = Entries.keys entries := by
  induction entries with
  | nil => rfl
  | cons entry rest ih =>
    unfold coerceEntries
    exact congrArg (entry.1 :: ·) ih

/-- What the entries of an input object read as makes up the same object, whatever the defaults of its fields are. -/
private theorem coerceInput_reread {input : String} {fields : List InputValue} (hdistinct : Members.Distinct fields)
    {read : List (String × Value)} {v : Value} (hv : v.reread = some (.object read))
    (hread : ∀ entry ∈ read, ∀ type w, w.reread = some entry.2 → c.coerceIn type entry.2 = .ok w →
      (c.rewritten r).coerceIn type entry.2 = .ok w)
    (h : coerceInput input fields (c.coerceEntries fields read) = .ok v) :
    coerceInput input (fields.map r.input) ((c.rewritten r).coerceEntries (fields.map r.input) read) = .ok v := by
  obtain ⟨entries, rfl, hentries⟩ := coerceInput_eq_ok h
  obtain ⟨_, heq, hreread⟩ := Value.reread_object hv
  cases heq
  have hnodup : (Entries.keys entries).Nodup := (inputEntries_keys hentries).nodup hdistinct
  have hknown : (Entries.keys read).find? (!Members.contains · (fields.map r.input)) = none := by
    have hcontains (key : String) : Members.contains key (fields.map r.input) = Members.contains key fields :=
      Members.contains_map fun _ => rfl
    unfold coerceInput at h
    rw [keys_coerceEntries] at h
    simp only [hcontains]
    split at h
    · cases h
    · next hknown => exact hknown
  have hmap : inputEntries input ((c.rewritten r).coerceEntries (fields.map r.input) read) (fields.map r.input) =
      .ok entries := by
    have hget {field : InputValue} (hfield : field ∈ fields) :
        Entries.get? field.name ((c.rewritten r).coerceEntries (fields.map r.input) read) =
          (Entries.get? field.name read).map ((c.rewritten r).coerceIn field.type) := by
      have hmem : r.input field ∈ fields.map r.input := List.mem_map_of_mem hfield
      show Entries.get? (r.input field).name _ = (Entries.get? (r.input field).name read).map
        ((c.rewritten r).coerceIn (r.input field).type)
      exact get?_coerceEntries (hdistinct.map fun _ => rfl) hmem
    refine inputEntries_rewritten hentries (fun field hfield w hw => ?_) fun field hfield hnone => ?_
    · obtain ⟨w', hw', hmem⟩ := inputEntries_given hfield hw hentries
      cases hw'
      rw [get?_coerceEntries hdistinct hfield] at hw
      obtain ⟨u, hu, hcoerced⟩ := Option.map_eq_some_iff.1 hw
      have hreads := Value.get?_rereadEntries field.name hreread
      rw [hu, Entries.get?_of_mem hnodup hmem, Option.bind_some] at hreads
      rw [hget hfield, hu, Option.map_some, hread _ (Entries.mem_of_get? hu) field.type w hreads.symm hcoerced]
    · rw [get?_coerceEntries hdistinct hfield, Option.map_eq_none_iff] at hnone
      have habsent : field.name ∉ Entries.keys entries := by
        rw [← Value.keys_rereadEntries hreread]
        exact Entries.get?_eq_none_iff.1 hnone
      exact ⟨by rw [hget hfield, hnone]; rfl, (inputEntries_absent hentries hfield habsent).1⟩
  unfold coerceInput
  rw [keys_coerceEntries, hknown]
  dsimp only
  rw [hmap]
  rfl

/-- A value is coerced to a scalar or an enum whatever the literals of the schema are. -/
private theorem coerceNamed_rewritten {u v : Value} {name : String}
    {given given' : Option (List InputValue → List (String × Except CoercionError Value))}
    (hinput : ∀ decl fields entries, c.schema.type? name = some decl → decl.body = .input fields →
      given = some entries → coerceInput decl.name fields (entries fields) = .ok v →
        ∃ entries', given' = some entries' ∧
          coerceInput decl.name (fields.map r.input) (entries' (fields.map r.input)) = .ok v)
    (h : c.coerceNamed u given name = .ok v) : (c.rewritten r).coerceNamed u given' name = .ok v := by
  obtain ⟨decl, hdecl, hcases⟩ := coerceNamed_eq_ok h
  have htype : (c.rewritten r).schema.type? name = some (r.type decl) := by
    rw [show (c.rewritten r).schema = c.schema.rewritten r from rfl, Schema.type?_rewritten, hdecl]
    rfl
  unfold coerceNamed
  rw [htype]
  dsimp only
  rcases hcases with ⟨kind, hbody, h⟩ | ⟨values, hbody, h⟩ | ⟨fields, entries, hbody, hgiven, h⟩
  · rw [show (r.type decl).body = .scalar kind by simp [Rewriting.type, hbody, Rewriting.body]]
    exact h
  · rw [show (r.type decl).body = .enum (values.map r.symbol) by simp [Rewriting.type, hbody, Rewriting.body]]
    have hcontains (symbol : String) : Members.contains symbol (values.map r.symbol) = Members.contains symbol values :=
      Members.contains_map fun _ => rfl
    have hsymbol : (c.rewritten r).coerceSymbol (r.type decl).name (values.map r.symbol) u =
        c.coerceSymbol decl.name values u := by
      unfold coerceSymbol
      simp only [hcontains]
      rfl
    exact hsymbol.trans h
  · obtain ⟨entries', rfl, h⟩ := hinput decl fields entries hdecl hbody hgiven h
    rw [show (r.type decl).body = .input (fields.map r.input) by simp [Rewriting.type, hbody, Rewriting.body]]
    exact h

/-- What items read as is coerced to them if this holds of each. -/
private theorem coerceItems_reread {item : TypeRef} {items : List Value}
    (hitems : ∀ w ∈ items, ∀ v, v.reread = some w → c.coerceIn item w = .ok v →
      (c.rewritten r).coerceIn item w = .ok v) :
    ∀ {vs : List Value}, Value.rereadItems vs = some items → c.coerceItems item items = .ok vs →
      (c.rewritten r).coerceItems item items = .ok vs := by
  induction items with
  | nil =>
    intro vs _ h
    unfold coerceItems at h ⊢
    exact h
  | cons w rest ih =>
    intro vs hvs h
    obtain ⟨hhere, hrest⟩ := List.forall_mem_cons.1 hitems
    unfold coerceItems at h ⊢
    split at h
    · next v hv =>
      obtain ⟨more, hmore, rfl⟩ := map_eq_ok h
      obtain ⟨_, _, heq, hw, hrests⟩ := Value.rereadItems_cons hvs
      cases heq
      rw [hhere v hw hv]
      dsimp only
      rw [ih hrest hrests hmore]
      rfl
    · cases h

/-- If what a value reads as is coerced to the value, it does not matter which literals the schema has elsewhere. -/
theorem coerceIn_reread (hdistinct : c.schema.Distinct) (type : TypeRef) (u : Value) {v : Value}
    (hv : v.reread = some u) (h : c.coerceIn type u = .ok v) : (c.rewritten r).coerceIn type u = .ok v := by
  -- by recursion on what is read: items and entries are smaller, whatever their types
  match u, hv, h with
  | .var _, _, h | .null, _, h =>
    unfold coerceIn at h ⊢
    exact h
  | .list items, hv, h =>
    unfold coerceIn at h ⊢
    refine coerceAs_congr (fun item ws hws hitems => ?_) (fun item hnone => by cases hnone) (fun name hname => ?_) type h
    · subst hws
      obtain ⟨_, heq, hreread⟩ := Value.reread_list hv
      cases heq
      refine congrArg some (coerceItems_reread (fun w hw v hv h => ?_) hreread (Option.some.inj hitems))
      exact coerceIn_reread hdistinct item w hv h
    · exact coerceNamed_rewritten (fun _ _ _ _ _ hgiven => by cases hgiven) hname
  | .object entries, hv, h =>
    unfold coerceIn at h ⊢
    refine coerceAs_congr (fun _ _ _ hitems => by cases hitems) (fun item _ w hw => ?_) (fun name hname => ?_) type h
    · subst hw
      obtain ⟨_, heq, -⟩ := Value.reread_list hv
      cases heq
    · refine coerceNamed_rewritten (fun decl fields given hdecl hfields hgiven h => ⟨_, rfl, ?_⟩) hname
      cases hgiven
      have hfields := hdistinct.inputFields (Members.mem_of_get? hdecl) hfields
      refine coerceInput_reread hfields hv (fun entry hentry type w hw h => ?_) h
      exact coerceIn_reread hdistinct type entry.2 hw h
  | .bool _, hv, h | .int _, hv, h | .float _, hv, h | .string _, hv, h | .enum _, hv, h | .time _, hv, h =>
    unfold coerceIn at h ⊢
    refine coerceAs_congr (fun _ _ _ hitems => by cases hitems) (fun item _ w hw => ?_) (fun name hname => ?_) type h
    · subst hw
      obtain ⟨_, heq, -⟩ := Value.reread_list hv
      cases heq
    · exact coerceNamed_rewritten (fun _ _ _ _ _ hgiven => by cases hgiven) hname
termination_by sizeOf u
decreasing_by
  · exact Value.sizeOf_item_lt hw
  · exact Value.sizeOf_entry_lt hentry

end Coercion

end GraphQL
