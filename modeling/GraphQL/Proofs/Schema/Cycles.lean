import GraphQL.Proofs.Cycle
import GraphQL.Schema.Validation
import Mathlib

/-!
# Cycles of directives

An argument of a directive may itself carry directives. A schema in which a directive is carried by itself in this way,
be it by way of others, has a fault, and nothing else is reported as a cycle (`Schema.faults_directiveCycle_iff`). What
is reported tells the arguments on the way from the smallest directive on the cycle back to it
(`Schema.directiveCycle_way`), and no directive that is the smallest on a cycle is passed over
(`Schema.exists_directiveCycle`).
-/

namespace GraphQL

/-- The fault is a cycle of directives. -/
def SchemaFault.isDirectiveCycle : SchemaFault → Bool
  | directiveCycle .. => true
  | _ => false

namespace Schema

/-! ### Directives on arguments of directives -/

/-- The argument of the directive carries the next directive. -/
def Carries (schema : Schema) (name argument next : String) : Prop :=
  ∃ decl, schema.directive? name = some decl ∧
    ∃ arg ∈ decl.args, arg.name = argument ∧ ∃ use ∈ arg.directives, use.name = next

/-- Some argument of the directive carries the next directive. -/
def Leads (schema : Schema) (name next : String) : Prop := ∃ argument, schema.Carries name argument next

/-- The way leads from a directive to the last one: each argument on it carries the directive that comes next. -/
inductive Way (schema : Schema) (last : String) : String → List (String × String) → Prop
  | done {name argument : String} (h : schema.Carries name argument last) : Way schema last name [(name, argument)]
  | step {name argument next : String} {path : List (String × String)} (h : schema.Carries name argument next)
      (hrest : Way schema last next path) : Way schema last name ((name, argument) :: path)

variable {schema : Schema}

theorem mem_directiveEdges_iff {name argument next : String} :
    (argument, next) ∈ schema.directiveEdges name ↔ schema.Carries name argument next := by
  unfold directiveEdges Carries
  cases schema.directive? name with
  | none => simp
  | some decl =>
    simp only [List.mem_flatMap, List.mem_map, Prod.mk.injEq, Option.some.injEq, exists_eq_left']
    refine exists_congr fun arg => and_congr_right fun _ => ?_
    exact ⟨fun ⟨use, huse, harg, hnext⟩ => ⟨harg, use, huse, hnext⟩,
      fun ⟨harg, use, huse, hnext⟩ => ⟨use, huse, harg, hnext⟩⟩

theorem edge_directiveEdges_iff {name next : String} :
    Cycle.Edge schema.directiveEdges name next ↔ schema.Leads name next :=
  exists_congr fun _ => mem_directiveEdges_iff

/-- Only directives that are declared lead on. -/
private theorem mem_names_of_directiveEdges (name : String) (h : schema.directiveEdges name ≠ []) :
    name ∈ Members.names schema.directives := by
  unfold directiveEdges at h
  split at h
  · exact absurd rfl h
  · next decl hdecl => exact List.mem_map.2 ⟨decl, Members.mem_of_get? hdecl, Members.name_of_get? hdecl⟩

private theorem find?_directiveEdges (start : String) :
    Cycle.find? schema.directiveEdges (Members.names schema.directives).length start =
      Cycle.find? schema.directiveEdges schema.directives.length start := by
  rw [Members.names, List.length_map]

/-! ### Other faults -/

/-- No cycle is among the errors. -/
private def NoCycle (errors : List SchemaError) : Prop := ∀ e ∈ errors, e.cause.isDirectiveCycle = false

private theorem NoCycle.append {errors more : List SchemaError} (h : NoCycle errors) (h' : NoCycle more) :
    NoCycle (errors ++ more) := List.forall_mem_append.2 ⟨h, h'⟩

private theorem NoCycle.flatMap {α : Type} {members : List α} {f : α → List SchemaError} (h : ∀ a, NoCycle (f a)) :
    NoCycle (members.flatMap f) := List.forall_mem_flatMap.2 fun a _ => h a

private theorem noCycle_faultIf {condition : Bool} {fault : SchemaFault} {pos : Pos}
    (h : fault.isDirectiveCycle = false) : NoCycle (faultIf condition fault pos) := by
  unfold faultIf
  split
  · exact List.forall_mem_singleton.2 h
  · exact nofun

private theorem noCycle_names (name : String) (builtin : Bool) (pos : Pos) : NoCycle (nameFaults name builtin pos) := by
  unfold nameFaults
  split
  · exact List.forall_mem_singleton.2 rfl
  · exact nofun

private theorem noCycle_directives (location : DirectiveLocation) (uses : List DirectiveUse) :
    NoCycle (schema.directivesFaults location uses) := List.forall_mem_map.2 fun _ _ => rfl

private theorem noCycle_default (what : String) (value : InputValue) : NoCycle (schema.defaultFaults what value) := by
  unfold defaultFaults
  split
  · exact nofun
  · split
    · exact List.forall_mem_singleton.2 rfl
    · split
      · exact nofun
      · exact List.forall_mem_singleton.2 rfl

private theorem noCycle_input (what : String) (builtin : Bool) (location : DirectiveLocation) (value : InputValue) :
    NoCycle (schema.inputFaults what builtin location value) := by
  unfold inputFaults
  refine (noCycle_names _ _ _).append ?_
  split
  · exact (noCycle_directives _ _).append (noCycle_default _ _)
  · exact List.forall_mem_singleton.2 rfl

private theorem noCycle_field (owner : String) (builtin : Bool) (field : FieldDef) :
    NoCycle (schema.fieldFaults owner builtin field) :=
  (((noCycle_names _ _ _).append (noCycle_faultIf rfl)).append (noCycle_directives _ _)).append
    (.flatMap fun _ => noCycle_input _ _ _ _)

private theorem noCycle_arguments (type interface : String) (field expected : FieldDef) :
    NoCycle (argumentsFaults type interface field expected) := by
  refine NoCycle.append (.flatMap fun arg => ?_) (.flatMap fun _ => noCycle_faultIf rfl)
  split
  · exact List.forall_mem_singleton.2 rfl
  · exact noCycle_faultIf rfl

private theorem noCycle_conformance (type interface : String) (fields : List FieldDef) (pos : Pos)
    (expected : FieldDef) : NoCycle (schema.conformanceFaults type interface fields pos expected) := by
  unfold conformanceFaults
  split
  · exact List.forall_mem_singleton.2 rfl
  · exact (noCycle_faultIf rfl).append (noCycle_arguments _ _ _ _)

private theorem noCycle_interface (type : String) (body : ObjectBody) (pos : Pos) (interface : String) :
    NoCycle (schema.interfaceFaults type body pos interface) := by
  unfold interfaceFaults
  split
  · exact List.forall_mem_singleton.2 rfl
  · split
    · exact nofun
    · exact NoCycle.append (.flatMap fun _ => noCycle_faultIf rfl) (.flatMap fun _ => noCycle_conformance _ _ _ _ _)
    · exact List.forall_mem_singleton.2 rfl

private theorem noCycle_object (type : TypeDecl) (body : ObjectBody) : NoCycle (schema.objectFaults type body) :=
  ((noCycle_faultIf rfl).append (.flatMap fun _ => noCycle_field _ _ _)).append
    (.flatMap fun _ => noCycle_interface _ _ _ _)

private theorem noCycle_symbol (builtin : Bool) (value : EnumValue) : NoCycle (schema.symbolFaults builtin value) := by
  refine NoCycle.append ?_ (noCycle_directives _ _)
  split
  · exact List.forall_mem_singleton.2 rfl
  · exact noCycle_names _ _ _

private theorem noCycle_roots (roots : SchemaRoots) (pos : Pos) : NoCycle (schema.rootFaults roots pos) := by
  refine .flatMap fun kind => ?_
  split
  · exact nofun
  · exact noCycle_faultIf rfl

private theorem noCycle_body (type : TypeDecl) : NoCycle (schema.bodyFaults type) := by
  unfold bodyFaults
  split
  · exact nofun
  · exact noCycle_object _ _
  · exact noCycle_object _ _
  · exact (noCycle_faultIf rfl).append (.flatMap fun _ => noCycle_faultIf rfl)
  · exact (noCycle_faultIf rfl).append (.flatMap fun _ => noCycle_symbol _ _)
  · exact (noCycle_faultIf rfl).append (.flatMap fun _ => noCycle_input _ _ _ _)
  · exact noCycle_roots _ _

private theorem noCycle_type (type : TypeDecl) : NoCycle (schema.typeFaults type) := by
  refine NoCycle.append (NoCycle.append ?_ (noCycle_directives _ _)) (noCycle_body type)
  split
  · exact nofun
  · exact noCycle_names _ _ _

private theorem noCycle_directive (decl : DirectiveDecl) : NoCycle (schema.directiveFaults decl) :=
  ((noCycle_names _ _ _).append (noCycle_faultIf rfl)).append (.flatMap fun _ => noCycle_input _ _ _ _)

/-! ### Cycles -/

/-- The cycles among the faults are what the directives find. -/
private theorem mem_directiveCycleFaults {e : SchemaError} :
    e ∈ schema.faults ∧ e.cause.isDirectiveCycle = true ↔
      ∃ decl ∈ schema.directives, ∃ path,
        Cycle.find? schema.directiveEdges schema.directives.length decl.name = some path ∧
          e = ⟨.directiveCycle path decl.name, decl.pos⟩ := by
  have hcycle (decl : DirectiveDecl) : e ∈ schema.directiveCycleFaults decl ↔ ∃ path,
      Cycle.find? schema.directiveEdges schema.directives.length decl.name = some path ∧
        e = ⟨.directiveCycle path decl.name, decl.pos⟩ := by
    unfold directiveCycleFaults
    cases Cycle.find? schema.directiveEdges schema.directives.length decl.name <;> simp
  unfold faults
  rw [List.mem_append, List.mem_flatMap (l := schema.directives) (f := schema.directiveCycleFaults)]
  simp only [hcycle]
  refine ⟨fun ⟨he, hkind⟩ => he.resolve_left fun hother => ?_, fun he => ⟨.inr he, ?_⟩⟩
  · have hnone := (NoCycle.flatMap (schema.noCycle_type ·)).append (.flatMap (schema.noCycle_directive ·)) e hother
    rw [hkind] at hnone
    cases hnone
  · obtain ⟨decl, -, path, -, rfl⟩ := he
    rfl

/-- A way that a search has found. -/
private theorem way_of_returns {start name : String} {path : List (String × String)}
    (h : Cycle.Returns schema.directiveEdges start name path) : schema.Way start name path := by
  induction h with
  | back hedge => exact .done (mem_directiveEdges_iff.1 hedge)
  | on hedge _ _ ih => exact .step (mem_directiveEdges_iff.1 hedge) ih

/-- What is reported is a cycle: each argument on it carries the next directive, and the first directive, which is the
last one too, is the smallest. -/
theorem directiveCycle_way {e : SchemaError} (he : e ∈ schema.faults) {path : List (String × String)} {start : String}
    (hcause : e.cause = .directiveCycle path start) :
    schema.Way start start path ∧ ∀ name ∈ Entries.keys path, start ≤ name := by
  obtain ⟨decl, -, found, hfound, rfl⟩ := mem_directiveCycleFaults.1 ⟨he, by rw [hcause]; rfl⟩
  cases hcause
  have hreturns := Cycle.returns_of_find? hfound
  refine ⟨way_of_returns hreturns, fun name hname => ?_⟩
  exact (hreturns.least name hname).elim (fun heq => heq ▸ le_refl _) le_of_lt

/-- A way back to the start through no smaller directive is one that the search for it can take, at least from where it
comes to the start for the last time. -/
private theorem Way.exists_edge {start name : String} {path : List (String × String)} (h : schema.Way start name path)
    (hleast : ∀ other ∈ Entries.keys path, start ≤ other)
    (hsteps : Relation.ReflTransGen (Cycle.Step schema.directiveEdges start) start name) :
    ∃ last, Relation.ReflTransGen (Cycle.Step schema.directiveEdges start) start last ∧
      Cycle.Edge schema.directiveEdges last start := by
  induction h with
  | done h => exact ⟨_, hsteps, edge_directiveEdges_iff.2 ⟨_, h⟩⟩
  | @step name argument next path h hrest ih =>
    have hedge : Cycle.Edge schema.directiveEdges name next := edge_directiveEdges_iff.2 ⟨argument, h⟩
    have hnext : start ≤ next := by
      cases hrest <;> exact hleast next (List.mem_cons_of_mem _ List.mem_cons_self)
    rcases eq_or_lt_of_le hnext with rfl | hlt
    · exact ⟨name, hsteps, hedge⟩
    · exact ih (fun other hother => hleast other (List.mem_cons_of_mem _ hother)) (hsteps.tail ⟨hedge, hlt⟩)

/-- A directive that is the smallest on some cycle is reported. -/
theorem exists_directiveCycle {start : String} {path : List (String × String)} (h : schema.Way start start path)
    (hleast : ∀ name ∈ Entries.keys path, start ≤ name) :
    ∃ e ∈ schema.faults, ∃ found, e.cause = .directiveCycle found start := by
  obtain ⟨last, hsteps, hback⟩ := h.exists_edge hleast .refl
  have hdecl : ∃ decl, schema.directive? start = some decl := by
    cases h with
    | done h => exact ⟨_, h.choose_spec.1⟩
    | step h => exact ⟨_, h.choose_spec.1⟩
  obtain ⟨decl, hdecl⟩ := hdecl
  obtain rfl : decl.name = start := Members.name_of_get? hdecl
  cases hfind : Cycle.find? schema.directiveEdges schema.directives.length decl.name with
  | none =>
    rw [← find?_directiveEdges] at hfind
    exact absurd hback (Cycle.not_edge_of_find?_eq_none mem_names_of_directiveEdges hfind hsteps)
  | some found =>
    obtain ⟨he, -⟩ := mem_directiveCycleFaults.2 ⟨decl, Members.mem_of_get? hdecl, found, hfind, rfl⟩
    exact ⟨_, he, found, rfl⟩

private theorem Way.transGen {last name : String} {path : List (String × String)} (h : schema.Way last name path) :
    Relation.TransGen schema.Leads name last := by
  induction h with
  | done h => exact .single ⟨_, h⟩
  | step h _ ih => exact .head ⟨_, h⟩ ih

/-- A cycle is reported if and only if some directive leads back to itself. -/
theorem faults_directiveCycle_iff :
    (∃ e ∈ schema.faults, e.cause.isDirectiveCycle = true) ↔ ∃ name, Relation.TransGen schema.Leads name name := by
  constructor
  · rintro ⟨e, he, hkind⟩
    obtain ⟨decl, -, path, -, rfl⟩ := mem_directiveCycleFaults.1 ⟨he, hkind⟩
    exact ⟨decl.name, (directiveCycle_way he rfl).1.transGen⟩
  · rintro ⟨name, hname⟩
    by_contra hnone
    -- where nothing is reported, no directive finds a way back
    have hfind : ∀ start ∈ Members.names schema.directives,
        Cycle.find? schema.directiveEdges (Members.names schema.directives).length start = none := by
      refine List.forall_mem_map.2 fun decl hdecl => Option.eq_none_iff_forall_ne_some.2 fun path hpath => hnone ?_
      rw [find?_directiveEdges] at hpath
      exact ⟨_, mem_directiveCycleFaults.2 ⟨decl, hdecl, path, hpath, rfl⟩⟩
    refine Cycle.acyclic_of_find? mem_names_of_directiveEdges hfind name ?_
    exact hname.lift id fun _ _ => edge_directiveEdges_iff.2

/-- The check of a schema reports a cycle of directives exactly if there is one, that is, if some directive leads back
to itself by directives on arguments. What it reports are ways from a directive back to it, on which each argument
carries the next directive and no directive is smaller than the first; and every directive that is the smallest on some
cycle is reported. -/
theorem faults_directive_cycles (schema : Schema) :
    ((∃ e ∈ schema.faults, e.cause.isDirectiveCycle = true) ↔ ∃ name, Relation.TransGen schema.Leads name name) ∧
      (∀ e ∈ schema.faults, ∀ path start, e.cause = .directiveCycle path start →
        schema.Way start start path ∧ ∀ name ∈ Entries.keys path, start ≤ name) ∧
      ∀ start path, schema.Way start start path → (∀ name ∈ Entries.keys path, start ≤ name) →
        ∃ e ∈ schema.faults, ∃ found, e.cause = .directiveCycle found start :=
  ⟨faults_directiveCycle_iff, fun _ he _ _ => directiveCycle_way he, fun _ _ => exists_directiveCycle⟩

private def carrying (argument : String) (directives : List String) : InputValue where
  name := argument
  type := .named "Int"
  directives := directives.map fun name => ⟨name, [], .start⟩

/-- Three directives and two cycles, which have one of the directives in common. -/
private def tangled : Schema where
  types := [{ name := "Int", builtin := true, body := .scalar .int }]
  directives :=
    [{ name := "c", args := [carrying "z" ["b"]], locations := [.argumentDefinition] },
      { name := "b", args := [carrying "y" ["c"], carrying "w" ["a"]], locations := [.argumentDefinition] },
      { name := "a", args := [carrying "x" ["b"]], locations := [.argumentDefinition] }]

/-- Both cycles are reported, each from its smallest directive on. -/
theorem tangled_directive_cycles :
    tangled.faults.map (·.cause.message) = ["directive cycle b.y->c.z->b", "directive cycle a.x->b.w->a"] ∧
      (∃ name, Relation.TransGen tangled.Leads name name) ∧
        tangled.Way "b" "b" [("b", "y"), ("c", "z")] ∧ tangled.Way "a" "a" [("a", "x"), ("b", "w")] ∧
          ∃ e ∈ tangled.faults, ∃ found, e.cause = .directiveCycle found "b" := by
  have hfaults : tangled.faults =
      [⟨.directiveCycle [("b", "y"), ("c", "z")] "b", .start⟩, ⟨.directiveCycle [("a", "x"), ("b", "w")] "a", .start⟩] := by
    cbv
  obtain ⟨hiff, hways, hall⟩ := faults_directive_cycles tangled
  have hb := hways ⟨.directiveCycle [("b", "y"), ("c", "z")] "b", .start⟩ (by simp [hfaults]) _ _ rfl
  have ha := hways ⟨.directiveCycle [("a", "x"), ("b", "w")] "a", .start⟩ (by simp [hfaults]) _ _ rfl
  refine ⟨by rw [hfaults]; rfl, hiff.1 ⟨_, hfaults ▸ List.mem_cons_self, rfl⟩, hb.1, ha.1, hall "b" _ hb.1 hb.2⟩

end Schema

end GraphQL
