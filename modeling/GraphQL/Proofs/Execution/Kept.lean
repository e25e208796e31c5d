import GraphQL.Proofs.Execution.Copies
import GraphQL.Proofs.Schema.Evolution
import Mathlib.Logic.Relation

/-!
# Requests that are kept

A request that is kept is executed again and again, and the plans of arguments that were made for it are kept with it.
Between executions declarations are added to the schema, the request is checked, and fragments get the selections of
other definitions together with their plans. The plans stay right through all of this, so nothing but reports of unknown
arguments shows whether there are any (`Kept.plans_unseen`).
-/

namespace GraphQL

/-! ### Plans while the schema grows -/

/-- Later declarations do not change how given arguments are matched against a field. -/
theorem FieldDef.Grows.plan_eq {earlier later : FieldDef} (h : earlier.Grows later) (given : List (String × Value)) :
    ArgumentPlan.of later given = ArgumentPlan.of earlier given := by
  have hnames : Members.names later.args = Members.names earlier.args := by
    have hargs := h.args
    generalize earlier.args = args, later.args = args' at hargs
    induction hargs with
    | nil => rfl
    | cons harg _ ih => exact congrArg₂ List.cons harg.name ih
  have horder (decl : FieldDef) : (ArgumentPlan.of decl given).order =
      (Members.names decl.args).map fun name => (name, Entries.get? name given) := by
    rw [Members.names, List.map_map]
    rfl
  have hcontains (name : String) : Members.contains name later.args = Members.contains name earlier.args := by
    rw [Bool.eq_iff_iff, Members.contains_iff, Members.contains_iff, hnames]
  have hunknown : (ArgumentPlan.of later given).unknown = (ArgumentPlan.of earlier given).unknown := by
    simp only [ArgumentPlan.of, hcontains]
  have hsame := horder later
  rw [hnames, ← horder earlier] at hsame
  exact congrArg₂ ArgumentPlan.mk hsame hunknown

theorem TypeDecl.Grows.field? {earlier later : TypeDecl} (h : earlier.Grows later) {name : String} {decl : FieldDef}
    (hdecl : earlier.field? name = some decl) : ∃ decl', later.field? name = some decl' ∧ decl.Grows decl' := by
  have hbody := h.body
  unfold TypeDecl.field? TypeDecl.fields? at hdecl ⊢
  generalize earlier.body = body, later.body = body' at hbody hdecl
  cases hbody with
  | object h | interface h => exact h.fields.get? (fun hfield => hfield.name) hdecl
  | scalar | union | enum | input | schema => cases hdecl

/-- A plan stays right when declarations are added. -/
theorem Document.PlanFor.grows {document : Document} {schema next : Schema} {key : PlanKey} {plan : ArgumentPlan}
    (h : document.PlanFor schema key plan) (hgrows : schema.Grows next) : document.PlanFor next key plan := by
  obtain ⟨parent, head, decl, hparent, hhead, hdecl, rfl⟩ := h
  obtain ⟨parent', hparent', htype⟩ := hgrows.types.get? (fun htype => htype.name) hparent
  obtain ⟨decl', hdecl', hfield⟩ := htype.field? hdecl
  exact ⟨parent', head, decl', hparent', hhead, hdecl', (hfield.plan_eq head.args).symm⟩

/-! ### Plans while fragments are edited -/

namespace Document

variable {document : Document} {fragment : Fragment} {source : PlanOwner} {selections : List Selection}

theorem selections?_withSelections (owner : PlanOwner) :
    (document.withSelections fragment selections).selections? owner =
      if owner = .fragment fragment.name then some selections else document.selections? owner := by
  cases owner with
  | operation name => exact (if_neg nofun).symm
  | subscription id => exact (if_neg nofun).symm
  | fragment name =>
    have hfound : (document.withSelections fragment selections).fragment? name =
        if fragment.name = name then some { fragment with selections } else document.fragment? name := Members.get?_put
    dsimp only [selections?]
    rw [hfound]
    by_cases hname : fragment.name = name
    · rw [if_pos hname, hname, if_pos rfl]
      rfl
    · have hne : PlanOwner.fragment name ≠ .fragment fragment.name := fun h => hname (PlanOwner.fragment.inj h).symm
      rw [if_neg hname, if_neg hne]

theorem head?_withSelections (owner : PlanOwner) (pos : Pos) (hsource : document.selections? source = some selections) :
    (document.withSelections fragment selections).head? owner pos =
      document.head? (if owner = .fragment fragment.name then source else owner) pos := by
  unfold head?
  rw [selections?_withSelections]
  split
  · rw [hsource]
  · rfl

theorem Placed.withSelections (h : document.Placed) (hsource : document.selections? source = some selections) :
    (document.withSelections fragment selections).Placed where
  operations := h.operations
  fragments := by
    intro other hother
    rcases Members.mem_put hother with rfl | hother
    · exact h.selections? hsource
    · exact h.fragments other hother

/-- Plans are right for the definition that gets them, too. -/
theorem PlanFor.edited {schema : Schema} {copy : Nat} {plans : PlanBook}
    (h : ∀ entry ∈ plans, entry.1.copy = copy → document.PlanFor schema entry.1 entry.2)
    (hsource : document.selections? source = some selections) :
    ∀ entry ∈ plans.edited copy source (.fragment fragment.name), entry.1.copy = copy →
      (document.withSelections fragment selections).PlanFor schema entry.1 entry.2 := by
  intro entry hentry hcopy
  rcases List.mem_append.1 hentry with hentry | hentry
  · obtain ⟨original, horiginal, rfl⟩ := List.mem_map.1 hentry
    obtain ⟨horiginal, hkey⟩ := List.mem_filter.1 horiginal
    obtain ⟨hcopy, howner⟩ : original.1.copy = copy ∧ original.1.owner = source := by simpa using hkey
    obtain ⟨parent, head, decl, hparent, hhead, hrest⟩ := h original horiginal hcopy
    refine ⟨parent, head, decl, hparent, ?_, hrest⟩
    rw [head?_withSelections _ _ hsource, if_pos rfl, ← howner]
    exact hhead
  · obtain ⟨hentry, hkey⟩ := List.mem_filter.1 hentry
    have howner : entry.1.owner ≠ .fragment fragment.name := by simpa [hcopy] using hkey
    obtain ⟨parent, head, decl, hparent, hhead, hrest⟩ := h entry hentry hcopy
    refine ⟨parent, head, decl, hparent, ?_, hrest⟩
    rw [head?_withSelections _ _ hsource, if_neg howner]
    exact hhead

theorem selections?_normal (document : Document) (schema : Schema) (owner : PlanOwner) :
    (document.normal schema).selections? owner =
      (document.selections? owner).map schema.coercion.normalSelections := by
  cases owner with
  | operation name =>
    have hget : Members.get? name (document.normal schema).operations =
        (Members.get? name document.operations).map schema.coercion.normalOperation := Members.get?_map fun _ => rfl
    dsimp only [selections?]
    rw [hget, Option.map_map, Option.map_map]
    rfl
  | fragment name =>
    have hget : (document.normal schema).fragment? name =
        (document.fragment? name).map schema.coercion.normalFragment := Members.get?_map fun _ => rfl
    dsimp only [selections?]
    rw [hget, Option.map_map, Option.map_map]
    rfl
  | subscription id => rfl

theorem head?_normal (document : Document) (schema : Schema) (owner : PlanOwner) (pos : Pos) :
    (document.normal schema).head? owner pos = (document.head? owner pos).map schema.coercion.normalHead := by
  unfold head?
  rw [selections?_normal]
  cases document.selections? owner with
  | none => rfl
  | some selections =>
    show (Selection.headsOf (schema.coercion.normalSelections selections)).find? (·.pos == pos) = _
    rw [Selection.headsOf_normal, List.find?_map]
    rfl

/-- The arguments of fields are the same in normal form. -/
theorem PlanFor.normal {schema : Schema} {key : PlanKey} {plan : ArgumentPlan} (h : document.PlanFor schema key plan) :
    (document.normal schema).PlanFor schema key plan := by
  obtain ⟨parent, head, decl, hparent, hhead, hdecl, rfl⟩ := h
  refine ⟨parent, schema.coercion.normalHead head, decl, hparent, ?_, hdecl, rfl⟩
  rw [head?_normal, hhead]
  rfl

end Document

/-! ### What is done while a request is kept -/

namespace Runtime

variable {ε α : Type}

/-- A copy of a request is left alone: there are no new plans for it, nor subscriptions to it. -/
structure Spares (copy : Nat) (before after : Runtime ε α) : Prop where
  numbered : after.Numbered
  next : before.next ≤ after.next
  conceals : after.Conceals copy
  plans : ∀ entry ∈ after.plans, entry.1.copy = copy → entry ∈ before.plans

/-- What may be done to a runtime that holds a copy of a request: the copy is left alone, or operations of it are
executed, with resolvers that do no more than that themselves. -/
inductive Works (schema : Schema) (document : Document) (copy : Nat) : Runtime ε α → Runtime ε α → Prop
  | refl (runtime : Runtime ε α) : Works schema document copy runtime runtime
  | apart {first second third : Runtime ε α} (hfirst : Works schema document copy first second)
    (h : second.Numbered → second.Conceals copy → second.Spares copy third) : Works schema document copy first third
  | execute {first second : Runtime ε α} {ω : Type} (service : Service ω ε α) (name : Option String)
    (supplied : List (String × Value)) (hfirst : Works schema document copy first second)
    (hschema : service.schema = schema)
    (hhost : ∀ o head args runtime,
      Works schema document copy runtime (service.host.resolve o head args runtime).2) :
    Works schema document copy first (service.execute document copy name supplied second).2

/-- A runtime that holds a copy goes on holding it. -/
theorem Works.holds {schema : Schema} {document : Document} {copy : Nat} (hplaced : document.Placed)
    {before after : Runtime ε α} (h : before.Works schema document copy after)
    (hbefore : before.Holds schema document copy) : after.Holds schema document copy ∧ before.next ≤ after.next := by
  induction h with
  | refl => exact ⟨hbefore, Nat.le_refl _⟩
  | apart _ hspares ih =>
    obtain ⟨hsecond, hnext⟩ := ih hbefore
    have hspares := hspares hsecond.numbered hsecond.conceals
    refine ⟨⟨hspares.numbered, hspares.conceals, fun entry hentry hcopy => ?_⟩, hnext.trans hspares.next⟩
    exact hsecond.plans entry (hspares.plans entry hentry hcopy) hcopy
  | execute service name supplied _ hschema _ ih ihhost =>
    subst hschema
    obtain ⟨hsecond, hnext⟩ := ih hbefore
    have hkeeps : service.host.Keeps service.schema document copy := fun o head args runtime hruntime =>
      ihhost o head args runtime hruntime
    obtain ⟨hafter, hnext'⟩ := Service.execute_holds hkeeps hplaced hsecond name supplied
    exact ⟨hafter, hnext.trans hnext'⟩

end Runtime

namespace Host

variable {ω ε α : Type} {host : Host ω ε α}

/-- Resolvers do to runtimes what may be done while a copy of a request is held. -/
def Works (host : Host ω ε α) (schema : Schema) (document : Document) (copy : Nat) : Prop :=
  ∀ o head args runtime, Runtime.Works schema document copy runtime (host.resolve o head args runtime).2

theorem Works.keeps {schema : Schema} {document : Document} {copy : Nat} (h : host.Works schema document copy)
    (hplaced : document.Placed) : host.Keeps schema document copy :=
  fun o head args runtime hruntime => (h o head args runtime).holds hplaced hruntime

end Host

/-- A request that is kept, with the schema and the runtime of the service. -/
structure Kept (ε α : Type) where
  schema : Schema
  document : Document
  runtime : Runtime ε α

namespace Kept

variable {ε α : Type} {copy : Nat} {kept next : Kept ε α}

/-- What happens to a request that is kept under the number of its copy. -/
inductive Step (copy : Nat) : Kept ε α → Kept ε α → Prop
  /-- Operations are executed, or something is done that leaves the copy alone. -/
  | work (kept : Kept ε α) {after : Runtime ε α} (h : kept.runtime.Works kept.schema kept.document copy after) :
    Step copy kept { kept with runtime := after }
  /-- Declarations are added, unless they are refused. -/
  | declare (kept : Kept ε α) (declarations : List Declaration) :
    Step copy kept { kept with schema := (kept.schema.add declarations).1 }
  /-- The request is checked and brought into normal form. -/
  | validate (kept : Kept ε α) : Step copy kept { kept with document := kept.document.normal kept.schema }
  /-- A fragment gets the selections of a definition, with their plans. -/
  | edit (kept : Kept ε α) (fragment : Fragment) {source : PlanOwner} {selections : List Selection}
    (h : kept.document.selections? source = some selections) :
    Step copy kept
      { kept with
        document := kept.document.withSelections fragment selections
        runtime :=
          { kept.runtime with plans := kept.runtime.plans.edited copy source (.fragment fragment.name) } }

/-- The schema has all its references resolved, places tell the fields of a definition apart, and plans are right. -/
structure Sound (kept : Kept ε α) (copy : Nat) : Prop where
  resolved : kept.schema.resolved = kept.schema
  placed : kept.document.Placed
  holds : kept.runtime.Holds kept.schema kept.document copy

theorem Sound.step (h : kept.Sound copy) (hstep : Step copy kept next) : next.Sound copy := by
  cases hstep with
  | work hworks => exact ⟨h.resolved, h.placed, (hworks.holds h.placed h.holds).1⟩
  | declare declarations =>
    show Sound { kept with schema := (kept.schema.add declarations).1 } copy
    cases hdeclare : kept.schema.declare? declarations with
    | error errors =>
      rw [Schema.add_of_error hdeclare]
      exact h
    | ok schema =>
      rw [Schema.add_of_ok hdeclare]
      have hgrows := Schema.declare?_grows h.resolved hdeclare
      refine ⟨Schema.declare?_resolved hdeclare, h.placed, h.holds.numbered, h.holds.conceals, ?_⟩
      exact fun entry hentry hcopy => (h.holds.plans entry hentry hcopy).grows hgrows
  | validate =>
    refine ⟨h.resolved, h.placed.normal kept.schema, h.holds.numbered, h.holds.conceals, ?_⟩
    exact fun entry hentry hcopy => (h.holds.plans entry hentry hcopy).normal
  | edit fragment hsource =>
    have hplans := @Document.PlanFor.edited _ fragment _ _ _ _ _ h.holds.plans hsource
    refine ⟨h.resolved, h.placed.withSelections hsource, ⟨?_, h.holds.numbered.subscriptions⟩, ?_, hplans⟩
    · intro entry hentry
      rcases List.mem_append.1 hentry with hentry | hentry
      · obtain ⟨original, -, rfl⟩ := List.mem_map.1 hentry
        exact h.holds.conceals.used
      · exact h.holds.numbered.plans entry (List.mem_filter.1 hentry).1
    · exact ⟨h.holds.conceals.used, h.holds.conceals.free⟩

theorem Sound.steps (h : kept.Sound copy) (hsteps : Relation.ReflTransGen (Step copy) kept next) : next.Sound copy := by
  induction hsteps with
  | refl => exact h
  | tail _ hstep ih => exact ih.step hstep

end Kept

end GraphQL
