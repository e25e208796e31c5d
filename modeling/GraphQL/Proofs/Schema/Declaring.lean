import GraphQL.Proofs.Schema.Rewriting
import GraphQL.Schema.Assembly

/-!
# What declaring does

`Schema.declare?_eq_ok_iff` says when declarations are accepted and what comes out: the assembled schema, with its
references resolved and in normal form. What single insertions and extensions keep, assembling keeps
(`Schema.assemble_induction`), and resolving and normalising change neither the names of types nor how they hang
together.
-/

namespace GraphQL

/-- An extension does not change the name of what it extends. -/
theorem TypeDecl.name_extend (type more : TypeDecl) : (type.extend more).1.name = type.name := by
  unfold TypeDecl.extend
  split <;> rfl

theorem TypeDecl.builtin_extend (type more : TypeDecl) : (type.extend more).1.builtin = type.builtin := by
  unfold TypeDecl.extend
  split <;> rfl

namespace Schema

variable {schema next : Schema} {declarations : List Declaration} {errors : List SchemaError}

/-! ### Stages -/

theorem accept_eq_ok_iff :
    schema.accept errors = .ok next ↔ errors = [] ∧ next = schema := by
  cases errors with
  | nil => simp [accept, eq_comm]
  | cons e rest => simp [accept]

/-- Declarations are accepted if no stage has errors. -/
theorem declare?_eq_ok_iff :
    schema.declare? declarations = .ok next ↔
      (schema.assemble declarations).2 = [] ∧ (schema.assemble declarations).1.danglingFaults = [] ∧
        (schema.assemble declarations).1.resolved.faults = [] ∧
          next = (schema.assemble declarations).1.resolved.normal := by
  unfold declare?
  obtain ⟨assembled, errors⟩ := schema.assemble declarations
  simp only [bind, Except.bind]
  cases errors with
  | cons e rest => simp [accept]
  | nil =>
    cases hdangling : assembled.danglingFaults with
    | cons e rest => simp [accept, hdangling]
    | nil => simp [accept, hdangling, ← accept_eq_ok_iff]

private theorem accept_ne_error_nil : schema.accept errors ≠ .error [] := by
  cases errors with
  | nil => simp [accept]
  | cons e rest => simp [accept]

/-- Declarations that are refused are refused for a reason. -/
theorem declare?_ne_error_nil : schema.declare? declarations ≠ .error [] := by
  intro h
  unfold declare? at h
  simp only [bind, Except.bind] at h
  split at h
  · next haccept =>
    cases h
    exact accept_ne_error_nil haccept
  · split at h
    · next haccept =>
      cases h
      exact accept_ne_error_nil haccept
    · exact accept_ne_error_nil h

theorem add_of_ok (h : schema.declare? declarations = .ok next) : schema.add declarations = (next, []) := by
  unfold add
  rw [h]

theorem add_of_error (h : schema.declare? declarations = .error errors) :
    schema.add declarations = (schema, errors) := by
  unfold add
  rw [h]

theorem add_eq_nil_iff : (schema.add declarations).2 = [] ↔ ∃ next, schema.declare? declarations = .ok next := by
  cases h : schema.declare? declarations with
  | ok next => simp [add_of_ok h]
  | error errors =>
    rw [add_of_error h]
    refine iff_of_false ?_ (by simp)
    rintro rfl
    exact declare?_ne_error_nil h

/-- What every step keeps, all steps keep. -/
theorem steps_induction {step : Schema → Declaration → Schema × List SchemaError} {P : Schema → Prop}
    (hstep : ∀ schema, ∀ d ∈ declarations, P schema → P (step schema d).1) (h : P schema) :
    P (steps step schema declarations).1 := by
  induction declarations generalizing schema with
  | nil => exact h
  | cons d rest ih =>
    exact ih (fun schema e he => hstep schema e (List.mem_cons_of_mem _ he)) (hstep schema d List.mem_cons_self h)

theorem steps_append {step : Schema → Declaration → Schema × List SchemaError} {more : List Declaration} :
    (steps step schema (declarations ++ more)).1 = (steps step (steps step schema declarations).1 more).1 := by
  induction declarations generalizing schema with
  | nil => rfl
  | cons d rest ih => exact ih

/-- What insertions and extensions keep, assembling keeps. -/
theorem assemble_induction {P : Schema → Prop}
    (hinsert : ∀ schema, ∀ d ∈ declarations, P schema → P (schema.insert d).1)
    (hextend : ∀ schema, ∀ d ∈ declarations, P schema → P (schema.extend d).1) (h : P schema) :
    P (schema.assemble declarations).1 := steps_induction hextend (steps_induction hinsert h)

/-! ### Extensions -/

section Extensions

variable {more type other : TypeDecl}

theorem mem_of_extended? (h : schema.extended? more = some type) : type ∈ schema.types ++ schema.declaration.toList := by
  unfold extended? at h
  split at h
  · exact List.mem_append_right _ (Option.mem_toList.2 h)
  · exact List.mem_append_left _ (Members.mem_of_get? h)

theorem mem_replace
    (h : other ∈ (schema.replace more type).types ++ (schema.replace more type).declaration.toList) :
    other = type ∨ other ∈ schema.types ++ schema.declaration.toList := by
  unfold replace at h
  split at h
  · rcases List.mem_append.1 h with h | h
    · exact .inr (List.mem_append_left _ h)
    · exact .inl (List.mem_singleton.1 h)
  · rcases List.mem_append.1 h with h | h
    · exact (Members.mem_put h).imp_right (List.mem_append_left _)
    · exact .inr (List.mem_append_right _ h)

theorem directives_replace : (schema.replace more type).directives = schema.directives := by
  unfold replace
  split <;> rfl

end Extensions

/-! ### Types stay -/

section Types

variable {name : String} {d : Declaration}

theorem hasType_insert (h : schema.hasType name = true) : (schema.insert d).1.hasType name = true := by
  cases d with
  | type type =>
    show (schema.insertType type).1.hasType name = true
    unfold insertType
    split
    · split <;> exact h
    · split
      · exact h
      · unfold hasType Members.contains at h ⊢
        rw [List.any_append, h, Bool.true_or]
  | directive decl =>
    show (schema.insertDirective decl).1.hasType name = true
    unfold insertDirective
    split <;> exact h
  | extension more => exact h

theorem hasType_extend : (schema.extend d).1.hasType name = schema.hasType name := by
  cases d with
  | type type => rfl
  | directive decl => rfl
  | extension more =>
    unfold Schema.extend
    dsimp only
    split
    · rfl
    · next type hextended =>
      have hname : HasName.name (type.extend more).1 = HasName.name type := by
        unfold TypeDecl.extend
        split <;> rfl
      unfold replace
      dsimp only
      split
      · rfl
      · next hkind =>
        -- the name is that of the type that was extended
        have htype : type ∈ schema.types := by
          unfold extended? at hextended
          split at hextended
          · exact absurd ‹_› (hkind _)
          · exact Members.mem_of_get? hextended
        unfold hasType
        rw [Members.contains_put, Bool.or_eq_left_iff_imp, hname]
        exact fun hsame => List.any_eq_true.2 ⟨type, htype, hsame⟩

theorem hasType_assemble_eq :
    (schema.assemble declarations).1.hasType name = (steps insert schema declarations).1.hasType name :=
  steps_induction (P := fun assembled => assembled.hasType name = (steps insert schema declarations).1.hasType name)
    (fun _ _ _ h => hasType_extend.trans h) rfl

/-- A type that is there stays there. -/
theorem hasType_assemble (h : schema.hasType name = true) :
    (schema.assemble declarations).1.hasType name = true :=
  hasType_assemble_eq.trans
    (steps_induction (P := fun schema => schema.hasType name = true) (fun _ _ _ => hasType_insert) h)

/-- A type that a part of the declarations adds is added by all of them. -/
theorem hasType_assemble_append {more : List Declaration}
    (h : (schema.assemble declarations).1.hasType name = true) :
    (schema.assemble (declarations ++ more)).1.hasType name = true := by
  rw [hasType_assemble_eq] at h ⊢
  rw [steps_append]
  exact steps_induction (P := fun schema => schema.hasType name = true) (fun _ _ _ => hasType_insert) h

theorem hasType_resolved : schema.resolved.hasType name = schema.hasType name := Members.contains_map fun _ => rfl

end Types

end Schema

end GraphQL
