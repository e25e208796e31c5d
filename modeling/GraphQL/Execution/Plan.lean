import GraphQL.Request.Document

/-!
# Plans of arguments

The arguments that a request gives to a field are matched against the declaration of the field once for every type of
object that the field is resolved on. The plan that results is kept, and names that the declaration does not have are
reported only when it is made.

A field is known by the copy of the request it belongs to, the definition it stands in, and its place there.
-/

namespace GraphQL

/-- The given arguments of a field matched against its declaration. -/
structure ArgumentPlan where
  /-- The declared arguments in their order, each with the literal that is given for it. -/
  order : List (String × Option Value)
  /-- The names that are not declared. -/
  unknown : List String

/-- Matches given arguments against the declaration of a field. -/
def ArgumentPlan.of (decl : FieldDef) (given : List (String × Value)) : ArgumentPlan where
  order := decl.args.map fun arg => (arg.name, Entries.get? arg.name given)
  unknown := (Entries.keys given).filter (!Members.contains · decl.args)

/-- The definition that a field stands in. -/
inductive PlanOwner where
  | operation (name : String)
  | fragment (name : String)
  /-- The field that the subscription of the given number is about. -/
  | subscription (id : Nat)
deriving DecidableEq, Repr

/-- The owner is a fragment. -/
def PlanOwner.isFragment : PlanOwner → Bool
  | fragment _ => true
  | _ => false

/-- What a plan is for. -/
structure PlanKey where
  /-- The number of the copy of the request. -/
  copy : Nat
  owner : PlanOwner
  /-- The place of the field. -/
  pos : Pos
  /-- The type of object that the field is resolved on. -/
  parent : String
deriving DecidableEq, Repr

/-- The plans made so far. -/
abbrev PlanBook := List (PlanKey × ArgumentPlan)

namespace PlanBook

/-- The plan for a key. -/
def get? (book : PlanBook) (key : PlanKey) : Option ArgumentPlan := (book.find? (·.1 == key)).map Prod.snd

/-- The plans of one definition for another, possibly in another copy. -/
def forDefinition (book : PlanBook) (source target : Nat × PlanOwner) : PlanBook :=
  (book.filter fun (key, _) => key.copy == source.1 && key.owner == source.2).map fun (key, plan) =>
    ({ key with copy := target.1, owner := target.2 }, plan)

/-- The plans of the fragments of one copy for another. -/
def forCopy (book : PlanBook) (source target : Nat) : PlanBook :=
  (book.filter fun (key, _) => key.copy == source && key.owner.isFragment).map fun (key, plan) =>
    ({ key with copy := target }, plan)

/-- The plans without those of one definition. -/
def without (book : PlanBook) (copy : Nat) (owner : PlanOwner) : PlanBook :=
  book.filter fun (key, _) => !(key.copy == copy && key.owner == owner)

/-- The plans when one definition of a copy has got the selections of another, with their plans. -/
def edited (book : PlanBook) (copy : Nat) (source target : PlanOwner) : PlanBook :=
  book.forDefinition (copy, source) (copy, target) ++ book.without copy target

end PlanBook

end GraphQL
