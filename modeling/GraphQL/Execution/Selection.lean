import GraphQL.Execution.Completion

/-!
# Executing selection sets

`Scope.select` makes the entries of a response object from data and a selection set. What is selected under a key that
is there already is merged into it. A fragment is never entered while it is being executed: `Scope.expand` knows the
fragments that are left.
-/

namespace GraphQL

/-! ### Merging -/

mutual

/-- Puts a value under a key; objects under the same key are merged. -/
def mergeEntry (entries : List (String × Value)) (key : String) : Value → List (String × Value)
  | .object more =>
    match Entries.get? key entries with
    | some (.object existing) => Entries.put key (.object (mergeEntries existing more)) entries
    | _ => Entries.put key (.object more) entries
  | v => Entries.put key v entries

/-- Puts all entries under their keys. -/
def mergeEntries (entries : List (String × Value)) : List (String × Value) → List (String × Value)
  | [] => entries
  | (key, v) :: rest => mergeEntries (mergeEntry entries key v) rest

end

namespace Scope

variable {ω ε α : Type}

/-! ### Fields -/

/-- Takes the endpoint that a field of a subscription gave. -/
def capture (scope : Scope ω ε α) (owner : PlanOwner) (head : FieldHead) (children : List Selection) (type : TypeRef)
    (endpoint : ε) : Execution ε α Unit := modify fun run =>
  let (id, runtime) := run.runtime.fresh
  let plans := runtime.plans.forDefinition (scope.copy, owner) (scope.shared, .subscription id)
  { run with
    runtime := runtime.addPlans plans
    captured := run.captured ++
      [{ id, endpoint, document := scope.document, copy := scope.shared, head, children, type,
         variableValues := scope.variableValues }] }

/-- The value of a declared field. -/
def declaredField (scope : Scope ω ε α) (owner : PlanOwner) (head : FieldHead) (children : List Selection)
    (shape : Shape ω ε α) (parent : TypeDecl) (decl : FieldDef) (data : Data ω ε) (depth : Nat) :
    Execution ε α (Outcome Value) := do
  let (args, errors) ← scope.fieldArguments owner parent decl head
  match args with
  | none => return (.null, errors)
  | some args =>
    match ← scope.dispatch data { parent, decl, head, args, depth } with
    | .error e => return (.null, errors ++ [e])
    | .ok resolved =>
      match resolved, scope.subscribing && depth == scope.service.maxDepth with
      | .endpoint endpoint, true =>
        scope.capture owner head children decl.type endpoint
        return (.null, errors)
      | resolved, _ =>
        let (v, more) ← scope.complete shape depth decl.type resolved
        return (v, errors ++ more)

/-- The value of a field; none if the key is left out. -/
def field (scope : Scope ω ε α) (owner : PlanOwner) (head : FieldHead) (children : List Selection)
    (shape : Shape ω ε α) (parent : TypeDecl) (data : Data ω ε) (depth : Nat) :
    Execution ε α (Outcome (Option Value)) := do
  if head.name = "__typename" then return (some (.string parent.name), [])
  match scope.introspection? parent head with
  | some (.error fault) => return failed (some .null) fault
  | some (.ok (data, type)) =>
    let (v, errors) ← scope.complete shape depth type data
    return (some v, errors)
  | none =>
    match parent.field? head.name with
    | none => return failed none (.unknownField head.name parent.name)
    | some decl =>
      let (v, errors) ← scope.declaredField owner head children shape parent decl data depth
      return (some v, errors)

/-! ### Selections -/

/-- Adds what is selected on data of a type at a depth to entries. -/
abbrev Expansion (ω ε α : Type) :=
  TypeDecl → Data ω ε → Nat → List (String × Value) → Execution ε α (Outcome (List (String × Value)))

/-- The label of a spread in the path of an error. -/
def spreadLabel (pos : Pos) : PathSegment := .key s!"fragment at {pos.text}"

mutual

/-- Adds what a selection gives to entries. `expand` gives the selections of a fragment, none if it is being executed
already. -/
def selectOne (scope : Scope ω ε α) (expand : String → Option (Expansion ω ε α)) (owner : PlanOwner) :
    Selection → Expansion ω ε α
  | .field head children, type, data, depth, entries => do
    let shape : Shape ω ε α := fun type data depth => scope.select expand owner children type data depth []
    let (v, errors) ← scope.field owner head children shape type data depth
    let entries :=
      match v with
      | some v => mergeEntry entries head.key v
      | none => entries
    return (entries, errors.map (.prefixed (.key head.key)))
  | .inline condition _ _ children, type, data, depth, entries =>
    if condition.all (scope.applies · type) then scope.select expand owner children type data depth entries
    else return (entries, [])
  | .spread name _ pos, type, data, depth, entries =>
    match expand name with
    | none => return failed entries (.fragmentCycle name)
    | some fragment => do
      let (entries, errors) ← fragment type data depth entries
      return (entries, errors.map (.prefixed (spreadLabel pos)))

/-- Adds what a selection set gives to entries. -/
def select (scope : Scope ω ε α) (expand : String → Option (Expansion ω ε α)) (owner : PlanOwner) :
    List Selection → Expansion ω ε α
  | [], _, _, _, entries => return (entries, [])
  | selection :: rest, type, data, depth, entries => do
    let (entries, errors) ←
      match scope.omission? selection.directives with
      | some warnings => pure (entries, warnings)
      | none => scope.selectOne expand owner selection type data depth entries
    let (entries, more) ← scope.select expand owner rest type data depth entries
    return (entries, errors ++ more)

end

/-- The selections of a fragment among those that are left. -/
def expand (scope : Scope ω ε α) (left : List Fragment) (name : String) : Option (Expansion ω ε α) :=
  match _found : Members.get? name left with
  | none => none
  | some fragment => some fun type data depth entries =>
    if scope.applies fragment.condition type then
      scope.select (scope.expand (Members.erase name left)) (.fragment name) fragment.selections type data depth entries
    else return (entries, [])
termination_by left.length
decreasing_by exact Members.length_erase_lt _found

/-- Adds what a selection set of the given definition gives to entries. -/
def selections (scope : Scope ω ε α) (owner : PlanOwner) (selections : List Selection) : Expansion ω ε α :=
  scope.select (scope.expand scope.document.fragments) owner selections

end Scope

end GraphQL
