import GraphQL.Proofs.Schema.Declared
import GraphQL.Proofs.Schema.Filled
import GraphQL.Proofs.Schema.Introspection
import GraphQL.Proofs.Schema.Reread

/-!
# What texts keep of literals

A text keeps what it says about a schema if its descriptions stay the same as block strings and its literals read as
values that are coerced to what they were written for (`Detail.IsKeptBy`). Where that holds, a schema stays valid if its
literals are replaced by what they read as (`Schema.Valid.readBack`), and coercing these brings the schema back
(`Schema.Valid.normal_readBack`).
-/

namespace GraphQL

/-- The schema with what its literals read as. -/
abbrev Schema.readBack (schema : Schema) : Schema := schema.rewritten Rewriting.readBack

/-- What the literal of the value reads as is coerced to the value. -/
def Schema.ReadsBack (schema : Schema) (type : TypeRef) (v : Value) : Prop :=
  ∃ u, v.reread = some u ∧ schema.coercion.coerceIn type u = .ok v

/-- A text of the schema keeps it: a description stays the same in its lines, and literals read back. -/
def Detail.IsKeptBy (schema : Schema) : Detail → Prop
  | .description text => SchemaText.IsKept text
  | .default ref v => schema.ReadsBack ref v
  | .use u => ∀ entry ∈ u.args, ∀ ref ∈ schema.argument? u.name entry.1, schema.ReadsBack ref entry.2
  | _ => True

/-- The layout shows it. -/
def SchemaLayout.Shows (layout : SchemaLayout) : Detail → Prop
  | .description _ => layout.descriptions = true
  | _ => True

/-- A directive that is used is given all arguments that have defaults. -/
def Detail.IsComplete (schema : Schema) : Detail → Prop
  | .use u => ∀ decl, schema.directive? u.name = some decl → Coercion.missingDefaults decl.args u.args = []
  | _ => True

namespace Schema

variable {schema base : Schema}

namespace ReadsBack

variable {type : TypeRef} {v : Value}

theorem reread (h : schema.ReadsBack type v) : v.reread = some v.readBack := by
  obtain ⟨u, hu, -⟩ := h
  rw [Value.readBack, hu, Option.getD_some]

theorem coerceIn_readBack (h : schema.ReadsBack type v) : schema.coercion.coerceIn type v.readBack = .ok v := by
  obtain ⟨u, hu, hcoerced⟩ := h
  rwa [Value.readBack, hu, Option.getD_some]

theorem accepts_readBack (h : schema.ReadsBack type v) (hv : v.mentionsVar = false) :
    schema.Accepts type v.readBack :=
  ⟨(v.mentionsVar_reread h.reread).trans hv, v, h.coerceIn_readBack⟩

/-- What the literal reads as is coerced to the value where other literals are read too. -/
theorem normalDefault_readBack (h : schema.ReadsBack type v) (hdistinct : schema.Distinct) (hv : v.mentionsVar = false) :
    schema.readBack.coercion.normalDefault type v.readBack = v := by
  have hcoerced : schema.readBack.coercion.coerceIn type v.readBack = .ok v :=
    Coercion.coerceIn_reread (c := schema.coercion) hdistinct type v.readBack h.reread h.coerceIn_readBack
  have hconstant := (v.mentionsVar_reread h.reread).trans hv
  simp [Coercion.normalDefault, hconstant, Coercion.normalLiteral, hcoerced]

end ReadsBack

/-! ### Uses of directives -/

section Uses

variable {use : DirectiveUse} {decl : DirectiveDecl}

private theorem argument?_of_mem (hdecl : schema.directive? use.name = some decl)
    (hdistinct : Members.Distinct decl.args) {arg : InputValue} (harg : arg ∈ decl.args) :
    schema.argument? use.name arg.name = some arg.type := by
  have hget : Members.get? arg.name decl.args = some arg := hdistinct.get?_of_mem harg
  rw [argument?, hdecl, Option.bind_some, hget, Option.map_some]

private theorem arg?_readBack (name : String) :
    (Rewriting.readBack.use use).arg? name = (use.arg? name).map Value.readBack :=
  Entries.get?_map (f := fun _ v => Value.readBack v)

private theorem keys_readBackArgs (args : List (String × Value)) : Entries.keys (readBackArgs args) = Entries.keys args := by
  simp [readBackArgs, Entries.keys]

/-- A directive can be used with what its arguments read as. -/
private theorem useFaults_readBack (h : schema.Valid) (hkept : (Detail.use use).IsKeptBy schema)
    {location : DirectiveLocation} {earlier : List String} (huse : schema.useFaults location false earlier use = []) :
    schema.readBack.useFaults location false earlier (Rewriting.readBack.use use) = [] := by
  obtain ⟨decl, hdecl, hallowed, hrepeated, hknown, hargs⟩ := useFaults_eq_nil_iff.1 huse
  have hdistinct : Members.Distinct decl.args := h.distinct.directives decl (Members.mem_of_get? hdecl)
  have hcontains (name : String) :
      Members.contains name (decl.args.map Rewriting.readBack.input) = Members.contains name decl.args :=
    Members.contains_map fun _ => rfl
  refine useFaults_eq_nil_iff.2 ⟨Rewriting.readBack.directive decl, ?_, hallowed, hrepeated, fun key hkey => ?_, ?_⟩
  · show schema.readBack.directive? use.name = _
    rw [directive?_rewritten, hdecl, Option.map_some]
  · rw [show Entries.keys (Rewriting.readBack.use use).args = Entries.keys use.args from keys_readBackArgs _] at hkey
    exact (hcontains key).trans (hknown key hkey)
  · refine List.forall_mem_map.2 fun arg harg => ?_
    obtain ⟨hgiven, hmissing⟩ := useArgumentFaults_eq_nil_iff.1 (hargs arg harg)
    refine useArgumentFaults_eq_nil_iff.2 ⟨fun u hu => ?_, fun hnone => ?_⟩
    · rw [show (Rewriting.readBack.input arg).name = arg.name from rfl, arg?_readBack] at hu
      obtain ⟨v, hv, rfl⟩ := Option.map_eq_some_iff.1 hu
      have hreads := hkept (arg.name, v) (Entries.mem_of_get? hv) arg.type (argument?_of_mem hdecl hdistinct harg)
      exact accepts_rewritten.2 (hreads.accepts_readBack (hgiven v hv).1)
    · rw [show (Rewriting.readBack.input arg).name = arg.name from rfl, arg?_readBack, Option.map_eq_none_iff] at hnone
      have hrequired := hmissing hnone
      simpa [InputValue.isRequired, Rewriting.input] using hrequired

private theorem missingDefaults_readBack (args : List InputValue) (given : List (String × Value)) :
    Coercion.missingDefaults (args.map Rewriting.readBack.input) (readBackArgs given) = [] ↔
      Coercion.missingDefaults args given = [] := by
  have hcontains (name : String) : Entries.contains name (readBackArgs given) = Entries.contains name given := by
    unfold Entries.contains readBackArgs
    rw [Entries.get?_map (f := fun _ v => Value.readBack v), Option.isSome_map]
  unfold Coercion.missingDefaults
  rw [List.filterMap_eq_nil_iff, List.filterMap_eq_nil_iff, List.forall_mem_map]
  refine forall₂_congr fun arg _ => ?_
  rw [show (Rewriting.readBack.input arg).name = arg.name from rfl, hcontains]
  cases hdefault : arg.default <;> simp [Rewriting.input, hdefault]

/-- Coercing what the arguments of a directive read as brings them back. -/
private theorem normalUse_readBack (h : schema.Valid) (hkept : (Detail.use use).IsKeptBy schema)
    (hcomplete : (Detail.use use).IsComplete schema) (hpasses : schema.Passes (.use use))
    (hnodup : (Entries.keys use.args).Nodup) :
    schema.readBack.coercion.normalUse false (Rewriting.readBack.use use) = use := by
  obtain ⟨location, earlier, huse⟩ := hpasses
  obtain ⟨decl, hdecl, -, -, hknown, hargs⟩ := useFaults_eq_nil_iff.1 huse
  have hdistinct : Members.Distinct decl.args := h.distinct.directives decl (Members.mem_of_get? hdecl)
  have hdirective : schema.readBack.directive? use.name = some (Rewriting.readBack.directive decl) := by
    rw [directive?_rewritten, hdecl, Option.map_some]
  have hgiven (entry : String × Value) (hentry : entry ∈ use.args) :
      schema.readBack.coercion.normalArgument false (Rewriting.readBack.directive decl).args
        (entry.1, entry.2.readBack) = entry := by
    obtain ⟨arg, harg, hname⟩ := List.mem_map.1 (Members.contains_iff.1 (hknown entry.1 (List.mem_map_of_mem hentry)))
    have hname : arg.name = entry.1 := hname
    have hget : Members.get? entry.1 (Rewriting.readBack.directive decl).args = some (Rewriting.readBack.input arg) := by
      show Members.get? entry.1 (decl.args.map Rewriting.readBack.input) = _
      rw [Members.get?_map (f := Rewriting.readBack.input) fun _ => rfl, ← hname,
        show Members.get? arg.name decl.args = some arg from hdistinct.get?_of_mem harg, Option.map_some]
    have hreads := hkept entry hentry arg.type (hname ▸ argument?_of_mem hdecl hdistinct harg)
    have hvalue : use.arg? arg.name = some entry.2 := hname ▸ Entries.get?_of_mem hnodup hentry
    have hconstant := ((useArgumentFaults_eq_nil_iff.1 (hargs arg harg)).1 _ hvalue).1
    rw [Coercion.normalArgument_eq]
    unfold Coercion.normalGiven
    rw [hget]
    exact Prod.ext rfl (hreads.normalDefault_readBack h.distinct hconstant)
  unfold Coercion.normalUse
  rw [show schema.readBack.coercion.schema.directive? (Rewriting.readBack.use use).name = _ from hdirective]
  dsimp only
  have hargs : (Rewriting.readBack.use use).args.map
      (schema.readBack.coercion.normalArgument false (Rewriting.readBack.directive decl).args) = use.args :=
    List.map_map.trans (map_eq_self_iff.2 hgiven)
  have hmissing : Coercion.missingDefaults (Rewriting.readBack.directive decl).args (Rewriting.readBack.use use).args = [] :=
    (missingDefaults_readBack decl.args use.args).2 (hcomplete decl hdecl)
  rw [hargs, hmissing, List.append_nil]
  rfl

end Uses

/-! ### Schemas -/

/-- A schema is still valid with what its literals read as, if these are kept. -/
theorem Valid.readBack (h : schema.Valid)
    (hkept : ∀ detail ∈ schema.details, detail.IsBasic ∨ detail.IsKeptBy schema) :
    schema.readBack.Valid := by
  refine h.rewritten fun detail hdetail => ?_
  cases detail with
  | use use =>
    rcases hkept _ hdetail with hbasic | hkept
    · cases hbasic
    · exact fun location earlier => useFaults_readBack h hkept
  | default type v =>
    intro hv
    rcases hkept _ hdetail with hbasic | hkept
    · rwa [(Detail.default.inj hbasic.readBack).2]
    · exact ReadsBack.accepts_readBack hkept hv.1
  | name _ | title _ | description _ | scalar _ _ | type _ | word _ | places _ => trivial

/-- Coercing what the literals of a schema read as brings it back. -/
theorem Valid.normal_readBack (h : schema.Valid) (hboolean : schema.scalar? "Boolean" = some .boolean)
    (hstring : schema.scalar? "String" = some .string)
    (hsaid : ∀ detail ∈ schema.details,
      detail.IsBasic ∨ detail.IsLegible base ∧ detail.IsKeptBy schema ∧ detail.IsComplete schema) :
    schema.readBack.normal = schema := by
  have hpasses := passes_of_faults h.faults
  rw [normal_eq_rewritten, rewritten_rewritten]
  refine rewritten_eq_self fun detail hdetail => ?_
  rw [Rewriting.detail_comp]
  rcases hsaid detail hdetail with hbasic | ⟨hlegible, hkept, hcomplete⟩
  · rw [hbasic.readBack]
    exact hbasic.normal (scalar?_rewritten.trans hboolean) (scalar?_rewritten.trans hstring)
  · cases detail with
    | use use =>
      exact congrArg Detail.use (normalUse_readBack h hkept hcomplete (hpasses _ hdetail) hlegible.2.1)
    | default type v =>
      exact congrArg (Detail.default type) (ReadsBack.normalDefault_readBack hkept h.distinct (hpasses _ hdetail).1)
    | name _ | title _ | description _ | scalar _ _ | type _ | word _ | places _ => rfl

/-- In a schema in normal form all directives are given the arguments that have defaults. -/
theorem Valid.complete_normal (h : schema.Valid) : ∀ detail ∈ schema.normal.details, detail.IsComplete schema.normal := by
  rw [normal_eq_rewritten, details_rewritten, ← normal_eq_rewritten, List.forall_mem_map]
  intro detail _
  cases detail with
  | use use =>
    intro _ hnormal
    rw [show (Coercion.normalizing { schema }).use use = schema.coercion.normalUse false use from rfl,
      Coercion.name_normalUse, directive?_normal] at hnormal
    obtain ⟨decl, hdecl, rfl⟩ := Option.map_eq_some_iff.1 hnormal
    exact h.missingDefaults_normalUse hdecl
  | name _ | title _ | description _ | scalar _ _ | default _ _ | type _ | word _ | places _ => trivial

end Schema

/-! ### Deciding what is kept -/

namespace Value

mutual

/-- The values are the same. -/
def same : Value → Value → Bool
  | null, null => true
  | bool b, bool b' => b == b'
  | int i, int i' => i == i'
  | float x, float x' => x == x'
  | string text, string text' => text == text'
  | enum symbol, enum symbol' => symbol == symbol'
  | var name, var name' => name == name'
  | time t, time t' => t == t'
  | list items, list items' => sameItems items items'
  | object entries, object entries' => sameEntries entries entries'
  | _, _ => false

private def sameItems : List Value → List Value → Bool
  | [], [] => true
  | v :: rest, v' :: rest' => same v v' && sameItems rest rest'
  | _, _ => false

private def sameEntries : List (String × Value) → List (String × Value) → Bool
  | [], [] => true
  | (key, v) :: rest, (key', v') :: rest' => key == key' && same v v' && sameEntries rest rest'
  | _, _ => false

end

mutual

theorem same_iff (v v' : Value) : same v v' = true ↔ v = v' := by
  cases v with
  | list items => cases v' <;> simp [same, sameItems_iff items]
  | object entries => cases v' <;> simp [same, sameEntries_iff entries]
  | null | bool _ | int _ | float _ | string _ | enum _ | var _ | time _ => cases v' <;> simp [same]

private theorem sameItems_iff (items items' : List Value) : sameItems items items' = true ↔ items = items' := by
  cases items with
  | nil => cases items' <;> simp [sameItems]
  | cons v rest => cases items' <;> simp [sameItems, same_iff v, sameItems_iff rest]

private theorem sameEntries_iff (entries entries' : List (String × Value)) :
    sameEntries entries entries' = true ↔ entries = entries' := by
  cases entries with
  | nil => cases entries' <;> simp [sameEntries]
  | cons entry rest =>
    obtain ⟨key, v⟩ := entry
    cases entries' <;> simp [sameEntries, same_iff v, sameEntries_iff rest, Prod.ext_iff]

end

instance : DecidableEq Value := fun v v' => decidable_of_iff _ (same_iff v v')

end Value

instance (text : String) : Decidable (SchemaText.IsKept text) :=
  decidable_of_iff _ (@SchemaText.reread_eq_iff "" (fun _ hc => by simp at hc) text)

instance (schema : Schema) (type : TypeRef) (v : Value) : Decidable (schema.ReadsBack type v) :=
  decidable_of_iff ((v.reread.bind fun u => (schema.coercion.coerceIn type u).toOption) = some v) (by
    have hok {result : Except CoercionError Value} : result.toOption = some v ↔ result = .ok v := by
      cases result <;> simp [Except.toOption]
    simp only [Option.bind_eq_some_iff, hok, Schema.ReadsBack])

instance (layout : SchemaLayout) : DecidablePred layout.Shows
  | .description _ => inferInstanceAs (Decidable (layout.descriptions = true))
  | .name _ | .title _ | .scalar _ _ | .type _ | .word _ | .use _ | .default _ _ | .places _ => isTrue trivial

instance (schema : Schema) : DecidablePred (Detail.IsKeptBy schema)
  | .description text => inferInstanceAs (Decidable (SchemaText.IsKept text))
  | .default ref v => inferInstanceAs (Decidable (schema.ReadsBack ref v))
  | .use u => inferInstanceAs (Decidable
      (∀ entry ∈ u.args, ∀ ref ∈ schema.argument? u.name entry.1, schema.ReadsBack ref entry.2))
  | .name _ | .title _ | .scalar _ _ | .type _ | .word _ | .places _ => isTrue trivial

end GraphQL
