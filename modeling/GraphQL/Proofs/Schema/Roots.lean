import GraphQL.Proofs.Schema.Inserted
import GraphQL.Proofs.Schema.Normal

/-!
# Roots of operations

The root of an operation is found in two ways: the schema declaration names it, or a type has the usual name. Only what
is named is checked, so a root that the declaration names is an object type of the schema. For the kinds that it does not
name, as for a schema without a declaration, the root is the type of the usual name, whatever type that is
(`Schema.Reachable.rootType?_cases`).
-/

namespace GraphQL

namespace Schema

variable {schema : Schema} {kind : OperationKind} {root : TypeRef}

/-- The schema declaration names the root of the operations of the kind. -/
def DeclaresRoot (schema : Schema) (kind : OperationKind) (root : TypeRef) : Prop :=
  ∃ declaration roots, schema.declaration = some declaration ∧ declaration.body = .schema roots ∧
    roots.root? kind = some root

theorem declaresRoot_iff : schema.DeclaresRoot kind root ↔ schema.roots.root? kind = some root := by
  have hempty : ({} : SchemaRoots).root? kind = none := by cases kind <;> rfl
  unfold DeclaresRoot roots
  cases schema.declaration with
  | none => simp [hempty]
  | some declaration =>
    cases hbody : declaration.body with
    | schema roots => simp [hbody]
    | scalar _ | object _ | interface _ | union _ | enum _ | input _ => simp [hbody, hempty]

/-- The root that a valid schema declares is an object type. -/
theorem Valid.rootType?_of_declares (h : schema.Valid) (hroot : schema.DeclaresRoot kind root) :
    ∃ type, schema.rootType? kind = some type ∧ type.name = root.baseName ∧ type.isObject = true := by
  have hname : schema.rootName kind = root.baseName := by rw [rootName, declaresRoot_iff.1 hroot]
  obtain ⟨declaration, roots, hdeclaration, hbody, hroot⟩ := hroot
  have hmem : declaration ∈ schema.types ++ schema.declaration.toList :=
    List.mem_append_right _ (Option.mem_toList.2 hdeclaration)
  have hfaults := (typeFaults_eq_nil_iff.1 ((faults_eq_nil_iff.1 h.faults).1 declaration hmem)).2.2
  unfold bodyFaults at hfaults
  rw [hbody] at hfaults
  obtain ⟨type, htype, hobject⟩ := (Option.any_eq_true _ _).1 (rootFaults_eq_nil_iff.1 hfaults kind root hroot)
  refine ⟨type, ?_, Members.name_of_get? htype, hobject⟩
  rw [rootType?, hname]
  exact htype

/-- The root of a kind of operations in a reachable schema is the object type that the schema declaration names. If there
is no declaration, or it names no root of the kind, it is the type of the usual name, if there is one. -/
theorem Reachable.rootType?_cases (h : schema.Reachable) (kind : OperationKind) :
    (∀ declaration, schema.declaration = some declaration → ∃ roots, declaration.body = .schema roots) ∧
      ((∃ root type, schema.DeclaresRoot kind root ∧ schema.rootType? kind = some type ∧
          type.name = root.baseName ∧ type.isObject = true) ∨
        (∀ root, ¬ schema.DeclaresRoot kind root) ∧ schema.rootType? kind = schema.type? kind.defaultRoot) := by
  refine ⟨h.orderly.declaration, ?_⟩
  cases hroot : schema.roots.root? kind with
  | some root =>
    have hdeclares := declaresRoot_iff.2 hroot
    obtain ⟨type, htype⟩ := h.valid.rootType?_of_declares hdeclares
    exact .inl ⟨root, type, hdeclares, htype⟩
  | none =>
    refine .inr ⟨fun root hdeclares => ?_, by rw [rootType?, rootName, hroot]⟩
    cases hroot.symm.trans (declaresRoot_iff.1 hdeclares)

/-- What is read from `schema{query:Q}type Q{a:Q}type Mutation{b:Q}`. -/
private def rooted : List TypeDecl := [
  { name := "schema", pos := ⟨1, 1⟩, body := .schema { query := some (.unresolved "Q" ⟨1, 14⟩) } },
  { name := "Q", pos := ⟨1, 16⟩
    body := .object { fields := [{ name := "a", type := .unresolved "Q" ⟨1, 25⟩, pos := ⟨1, 23⟩ }] } },
  { name := "Mutation", pos := ⟨1, 27⟩
    body := .object { fields := [{ name := "b", type := .unresolved "Q" ⟨1, 43⟩, pos := ⟨1, 41⟩ }] } }]

private theorem rooted_read :
    Schema.read? {} "schema{query:Q}type Q{a:Q}type Mutation{b:Q}".toUTF8.toList = .ok (rooted.map .type) := by
  have hbytes : "schema{query:Q}type Q{a:Q}type Mutation{b:Q}".toUTF8.toList =
      [115, 99, 104, 101, 109, 97, 123, 113, 117, 101, 114, 121, 58, 81, 125, 116, 121, 112, 101, 32, 81, 123, 97, 58,
        81, 125, 116, 121, 112, 101, 32, 77, 117, 116, 97, 116, 105, 111, 110, 123, 98, 58, 81, 125] := by
    decide +kernel
  rw [hbytes]
  cbv

private def halfNamed : Schema where
  types := rooted.tail.map TypeDecl.resolved
  declaration := rooted.head?.map TypeDecl.resolved

private theorem halfNamed_reachable : halfNamed.Reachable := by
  have hdeclare : Schema.declare? {} (rooted.map .type) = .ok halfNamed := by cbv
  exact .declare .empty (fun d hd => .inr ⟨_, _, _, d, rooted_read, hd, .inl rfl⟩) hdeclare

theorem halfNamed_mutations :
    (halfNamed.rootType? .mutation).map TypeDecl.name = some "Mutation" ∧ halfNamed.Reachable ∧
      (∀ declaration, halfNamed.declaration = some declaration → ∃ roots, declaration.body = .schema roots) ∧
        ((∃ root type, halfNamed.DeclaresRoot .mutation root ∧ halfNamed.rootType? .mutation = some type ∧
            type.name = root.baseName ∧ type.isObject = true) ∨
          (∀ root, ¬ halfNamed.DeclaresRoot .mutation root) ∧
            halfNamed.rootType? .mutation = halfNamed.type? OperationKind.mutation.defaultRoot) :=
  ⟨by decide, halfNamed_reachable, halfNamed_reachable.rootType?_cases .mutation⟩

end Schema

end GraphQL
