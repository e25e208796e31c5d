import GraphQL.Proofs.Schema.Literals
import GraphQL.Proofs.Schema.Rewritten

/-!
# Schemas in normal form

A valid schema stays valid when it is brought into normal form (`Schema.Valid.normal`). So every reachable schema is
valid as it stands, not only before its literals were coerced (`Schema.Reachable.valid`), and declaring nothing succeeds
(`Schema.Valid.declare?_nil`).
-/

namespace GraphQL

namespace Coercion

variable {c : Coercion}

/-! ### Uses of directives -/

section Uses

variable {args : List InputValue} {given : List (String × Value)} {use : DirectiveUse} {decl : DirectiveDecl}

theorem args_normalUse (hdecl : c.schema.directive? use.name = some decl) :
    (c.normalUse false use).args =
      use.args.map (c.normalArgument false decl.args) ++ missingDefaults decl.args use.args := by
  unfold normalUse
  rw [hdecl]

/-- The value of an argument of a directive in normal form. -/
def normalGiven (c : Coercion) (args : List InputValue) (key : String) (v : Value) : Value :=
  match Members.get? key args with
  | some arg => c.normalDefault arg.type v
  | none => v

theorem normalArgument_eq (entry : String × Value) :
    c.normalArgument false args entry = (entry.1, c.normalGiven args entry.1 entry.2) := by
  unfold normalArgument normalGiven normalDefault
  cases Members.get? entry.1 args with
  | none => rfl
  | some arg =>
    simp only [Bool.not_false, Bool.true_and]
    split <;> rfl

theorem keys_missingDefaults {key : String} (h : key ∈ Entries.keys (missingDefaults args given)) :
    key ∈ Members.names args := by
  obtain ⟨entry, hentry, rfl⟩ := List.mem_map.1 h
  obtain ⟨arg, harg, hmissing⟩ := List.mem_filterMap.1 hentry
  split at hmissing
  · cases hmissing
  · obtain ⟨v, -, rfl⟩ := Option.map_eq_some_iff.1 hmissing
    exact List.mem_map_of_mem harg

theorem get?_missingDefaults {arg : InputValue} (hdistinct : Members.Distinct args) (harg : arg ∈ args) :
    Entries.get? arg.name (missingDefaults args given) =
      if Entries.contains arg.name given then none else arg.default := by
  induction args with
  | nil => cases harg
  | cons other rest ih =>
    obtain ⟨hname, hdistinct⟩ : other.name ∉ Members.names rest ∧ Members.Distinct rest := List.nodup_cons.1 hdistinct
    have hcons : missingDefaults (other :: rest) given =
        ((if Entries.contains other.name given then none else other.default).map fun v => (other.name, v)).toList ++
          missingDefaults rest given := by
      unfold missingDefaults
      rw [List.filterMap_cons]
      cases Entries.contains other.name given <;> cases other.default <;> rfl
    rw [hcons, Entries.get?_append]
    rcases List.mem_cons.1 harg with rfl | harg
    · have hnone : Entries.get? arg.name (missingDefaults rest given) = none :=
        Entries.get?_eq_none_iff.2 fun hkey => hname (keys_missingDefaults hkey)
      rw [hnone]
      split
      · rfl
      · cases arg.default <;> simp [Entries.get?]
    · have hne : other.name ≠ arg.name := fun heq => hname (heq ▸ List.mem_map_of_mem harg)
      have hnone (v : Option Value) : Entries.get? arg.name (v.map fun v => (other.name, v)).toList = none := by
        cases v <;> simp [Entries.get?, hne]
      rw [hnone, Option.none_or, ih hdistinct harg]

/-- In normal form an argument of a directive has the value that is given, coerced, or the default. -/
theorem arg?_normalUse (hdecl : c.schema.directive? use.name = some decl) (hdistinct : Members.Distinct decl.args)
    {arg : InputValue} (harg : arg ∈ decl.args) :
    (c.normalUse false use).arg? arg.name =
      ((use.arg? arg.name).map (c.normalDefault arg.type)).or arg.default := by
  have hget : Members.get? arg.name decl.args = some arg := hdistinct.get?_of_mem harg
  have hgiven : c.normalGiven decl.args arg.name = c.normalDefault arg.type := by
    funext v
    simp [normalGiven, hget]
  unfold DirectiveUse.arg?
  rw [args_normalUse hdecl, Entries.get?_append, funext normalArgument_eq, Entries.get?_map, hgiven,
    get?_missingDefaults hdistinct harg]
  unfold Entries.contains
  cases Entries.get? arg.name use.args <;> rfl

end Uses

end Coercion

namespace Schema

variable {schema : Schema}

theorem accepts_normal {type : TypeRef} {v : Value} : schema.normal.Accepts type v ↔ schema.Accepts type v :=
  accepts_rewritten (r := Coercion.normalizing { schema })

theorem get?_normalInput {c : Coercion} (name : String) (args : List InputValue) :
    Members.get? name (args.map c.normalInput) = (Members.get? name args).map c.normalInput :=
  Members.get?_map fun _ => rfl

namespace Valid

variable {type : TypeRef} {v : Value}

theorem typeFaults (h : schema.Valid) {type : TypeDecl} (htype : type ∈ schema.types) : schema.typeFaults type = [] :=
  (faults_eq_nil_iff.1 h.faults).1 type (List.mem_append_left _ htype)

theorem accepts_inputDefault (h : schema.Valid) {place : TypeRef × Value} (hplace : Coercion.IsDefault schema place) :
    schema.Accepts place.1 place.2 := passes_of_faults h.faults _ hplace.mem_details

theorem accepts_argumentDefault (h : schema.Valid) {decl : DirectiveDecl} {name : String}
    (hdecl : schema.directive? name = some decl) {arg : InputValue} (harg : arg ∈ decl.args)
    (hdefault : arg.default = some v) : schema.Accepts arg.type v :=
  passes_of_faults h.faults _ (argumentDefault_mem_details (Members.mem_of_get? hdecl) harg hdefault)

/-- A literal in normal form can be coerced again. -/
theorem accepts_normalDefault (h : schema.Valid) (hv : schema.Accepts type v) :
    schema.normal.Accepts type (schema.coercion.normalDefault type v) := by
  obtain ⟨hvar, w, hw⟩ := hv
  have hnormal : schema.coercion.normalDefault type v = w := by
    simp [Coercion.normalDefault, hvar, Coercion.normalLiteral, hw]
  rw [hnormal, accepts_normal]
  exact accepts_coerced h.distinct (fun place hplace => h.accepts_inputDefault hplace) hvar hw

private theorem useFaults_normal (h : schema.Valid) {location : DirectiveLocation} {earlier : List String}
    {use : DirectiveUse} (huse : schema.useFaults location false earlier use = []) :
    schema.normal.useFaults location false earlier (schema.coercion.normalUse false use) = [] := by
  obtain ⟨decl, hdecl, hallowed, hrepeated, hknown, hargs⟩ := useFaults_eq_nil_iff.1 huse
  have hdistinct : Members.Distinct decl.args := h.distinct.directives decl (Members.mem_of_get? hdecl)
  have hcontains (name : String) :
      Members.contains name (decl.args.map schema.coercion.normalInput) = Members.contains name decl.args :=
    Members.contains_map fun _ => rfl
  refine useFaults_eq_nil_iff.2 ⟨schema.coercion.normalDirective decl, ?_, hallowed, ?_, fun key hkey => ?_, ?_⟩
  · rw [Coercion.name_normalUse, directive?_normal, hdecl]
    rfl
  · rw [Coercion.name_normalUse]
    exact hrepeated
  · rw [Coercion.args_normalUse hdecl, Entries.keys_append, List.mem_append] at hkey
    show Members.contains key (decl.args.map schema.coercion.normalInput) = true
    rw [hcontains]
    rcases hkey with hkey | hkey
    · refine hknown key ?_
      rw [funext Coercion.normalArgument_eq] at hkey
      simpa [Entries.keys] using hkey
    · exact Members.contains_iff.2 (Coercion.keys_missingDefaults hkey)
  · intro arg' harg'
    obtain ⟨arg, harg, rfl⟩ := List.mem_map.1 harg'
    obtain ⟨hgiven, hmissing⟩ := useArgumentFaults_eq_nil_iff.1 (hargs arg harg)
    have hvalue := Coercion.arg?_normalUse (c := schema.coercion) hdecl hdistinct harg
    refine useArgumentFaults_eq_nil_iff.2 ⟨fun w hw => ?_, fun hnone => ?_⟩
    · change (schema.coercion.normalUse false use).arg? arg.name = some w at hw
      show schema.normal.Accepts arg.type w
      rw [hvalue] at hw
      cases hv : use.arg? arg.name with
      | some v =>
        rw [hv] at hw
        cases hw
        exact h.accepts_normalDefault (hgiven v hv)
      | none =>
        -- the value is the default as it was declared, which is not coerced
        rw [hv] at hw
        exact accepts_normal.2 (h.accepts_argumentDefault hdecl harg hw)
    · -- the argument was not given and has no default, so it was not required before either
      change (schema.coercion.normalUse false use).arg? arg.name = none at hnone
      rw [hvalue, Option.or_eq_none_iff, Option.map_eq_none_iff] at hnone
      have hrequired := hmissing hnone.1
      simpa [InputValue.isRequired, Coercion.normalInput] using hrequired

private theorem keeps_normalizing (h : schema.Valid) (detail : Detail) :
    (Coercion.normalizing schema.coercion).Keeps schema detail := by
  cases detail with
  | use use => exact fun location earlier => h.useFaults_normal
  | default type v => exact fun hv => accepts_normal.1 (h.accepts_normalDefault hv)
  | name _ | title _ | description _ | scalar _ _ | type _ | word _ | places _ => trivial

/-- A valid schema stays valid when its literals are coerced. -/
theorem normal (h : schema.Valid) : schema.normal.Valid := h.rewritten fun detail _ => h.keeps_normalizing detail

/-- Declaring nothing is accepted by a valid schema, and coerces its literals once more. -/
theorem declare?_nil (h : schema.Valid) : schema.declare? [] = .ok schema.normal := by
  refine declare?_eq_ok_iff.2 ⟨rfl, danglingFaults_of_resolved h.resolved, ?_, ?_⟩
  · exact h.resolved.symm ▸ h.faults
  · rw [show (schema.assemble []).1 = schema from rfl, h.resolved]

end Valid

variable {next : Schema} {declarations : List Declaration}

/-- What an accepted batch makes of a schema with distinct members is valid before its literals are coerced. -/
theorem Distinct.valid_resolved (h : schema.Distinct) (hall : ∀ d ∈ declarations, d.Distinct)
    (hnext : schema.declare? declarations = .ok next) : (schema.assemble declarations).1.resolved.Valid where
  distinct := (h.assemble hall).resolved
  faults := (declare?_eq_ok_iff.1 hnext).2.2.1
  resolved := resolved_resolved

/-- A reachable schema is valid. -/
theorem Reachable.valid (h : schema.Reachable) : schema.Valid := by
  cases h with
  | empty => exact ⟨Reachable.empty.distinct, rfl, rfl⟩
  | declare hschema hread hnext =>
    have hvalid := hschema.distinct.valid_resolved (fun d hd => (hread d hd).distinct) hnext
    obtain ⟨-, -, -, rfl⟩ := declare?_eq_ok_iff.1 hnext
    exact hvalid.normal

end Schema

end GraphQL
