import GraphQL.Schema.Location

/-!
# Kinds of operations
-/

namespace GraphQL

/-- The kind of an operation. -/
inductive OperationKind where
  | query
  | mutation
  | subscription
deriving DecidableEq, Repr

namespace OperationKind

/-- All kinds. -/
def all : List OperationKind := [query, mutation, subscription]

/-- The keyword. -/
def text : OperationKind → String
  | query => "query"
  | mutation => "mutation"
  | subscription => "subscription"

/-- The kind of the given keyword. -/
def ofText? (text : String) : Option OperationKind := all.find? (·.text == text)

/-- The name of the root type where the schema does not name one. -/
def defaultRoot : OperationKind → String
  | query => "Query"
  | mutation => "Mutation"
  | subscription => "Subscription"

/-- The place where directives on the operation are used. -/
def location : OperationKind → DirectiveLocation
  | query => .query
  | mutation => .mutation
  | subscription => .subscription

end OperationKind

end GraphQL
