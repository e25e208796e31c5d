import GraphQL.Execution.Selection

/-!
# The fields of a selection set

`Scope.collected` lists the fields that a selection set selects on an object of a type: those of inline fragments and
of spread fragments stand where the fragment does, and what a directive leaves out or what is for other types is not
there. `Selection.levels` tells how deep the fields of a selection set are nested.
-/

namespace GraphQL

/-- A field that is selected on an object. -/
structure CollectedField where
  head : FieldHead
  children : List Selection
  /-- The fragments that are not being executed at the field. -/
  left : List Fragment

/-- The key of the field's value in a response. -/
def CollectedField.key (field : CollectedField) : String := field.head.key

/-- How many levels of fields there are in a selection set, at most, when the fragments `left` are entered once. -/
def Selection.levels (left : List Fragment) : List Selection → Nat
  | [] => 0
  | .field _ children :: rest => max (levels left children + 1) (levels left rest)
  | .inline _ _ _ children :: rest => max (levels left children) (levels left rest)
  | .spread name _ _ :: rest =>
    match _found : Members.get? name left with
    | none => levels left rest
    | some fragment => max (levels (Members.erase name left) fragment.selections) (levels left rest)
termination_by selections => (left.length, sizeOf selections)
decreasing_by
  all_goals first
    | exact Prod.Lex.left _ _ (Members.length_erase_lt _found)
    | (apply Prod.Lex.right
       simp only [List.cons.sizeOf_spec, Selection.field.sizeOf_spec, Selection.inline.sizeOf_spec]
       omega)

theorem Selection.levels_rest (left : List Fragment) (selection : Selection) (rest : List Selection) :
    levels left rest ≤ levels left (selection :: rest) := by
  cases selection with
  | field head children =>
    rw [levels]
    omega
  | inline condition directives pos children =>
    rw [levels]
    omega
  | spread name directives pos =>
    rw [levels]
    split <;> omega

namespace Scope

variable {ω ε α : Type}

/-- The fields that a selection set selects on an object of the given type, where the fragments `left` may be entered. -/
def collected (scope : Scope ω ε α) (type : TypeDecl) (left : List Fragment) : List Selection → List CollectedField
  | [] => []
  | selection :: rest =>
    (if (scope.omission? selection.directives).isSome then []
      else
        match selection with
        | .field head children => [{ head, children, left }]
        | .inline condition _ _ children =>
          if condition.all (scope.applies · type) then scope.collected type left children else []
        | .spread name _ _ =>
          match _found : Members.get? name left with
          | none => []
          | some fragment =>
            if scope.applies fragment.condition type then
              scope.collected type (Members.erase name left) fragment.selections
            else []) ++
      scope.collected type left rest
termination_by selections => (left.length, sizeOf selections)
decreasing_by
  all_goals first
    | exact Prod.Lex.left _ _ (Members.length_erase_lt _found)
    | (apply Prod.Lex.right
       simp only [List.cons.sizeOf_spec, Selection.inline.sizeOf_spec]
       omega)

/-- The fields that one selection selects. -/
def collectedOne (scope : Scope ω ε α) (type : TypeDecl) (left : List Fragment) (selection : Selection) :
    List CollectedField :=
  if (scope.omission? selection.directives).isSome then []
  else
    match selection with
    | .field head children => [{ head, children, left }]
    | .inline condition _ _ children =>
      if condition.all (scope.applies · type) then scope.collected type left children else []
    | .spread name _ _ =>
      match Members.get? name left with
      | none => []
      | some fragment =>
        if scope.applies fragment.condition type then
          scope.collected type (Members.erase name left) fragment.selections
        else []

variable {scope : Scope ω ε α} {type : TypeDecl} {left : List Fragment}

theorem collected_cons (selection : Selection) (rest : List Selection) :
    scope.collected type left (selection :: rest) =
      scope.collectedOne type left selection ++ scope.collected type left rest := by
  cases selection with
  | field head children => rw [collected, collectedOne]
  | inline condition directives pos children => rw [collected, collectedOne]
  | spread name directives pos =>
    rw [collected, collectedOne]
    split
    · rfl
    · split <;> simp [*]

theorem collected_append (selections more : List Selection) :
    scope.collected type left (selections ++ more) =
      scope.collected type left selections ++ scope.collected type left more := by
  induction selections with
  | nil => rw [List.nil_append, collected, List.nil_append]
  | cons selection rest ih =>
    rw [List.cons_append, collected_cons, collected_cons, ih, List.append_assoc]

theorem collectedOne_omitted {selection : Selection} {warnings : List Error}
    (h : scope.omission? selection.directives = some warnings) : scope.collectedOne type left selection = [] := by
  simp [collectedOne, h]

theorem collectedOne_field {head : FieldHead} {children : List Selection}
    (h : scope.omission? (Selection.field head children).directives = none) :
    scope.collectedOne type left (.field head children) = [{ head, children, left }] := by
  simp [collectedOne, h]

theorem collectedOne_inline {condition : Option String} {directives : List DirectiveUse} {pos : Pos}
    {children : List Selection}
    (h : scope.omission? (Selection.inline condition directives pos children).directives = none) :
    scope.collectedOne type left (.inline condition directives pos children) =
      if condition.all (scope.applies · type) then scope.collected type left children else [] := by
  simp [collectedOne, h]

theorem collectedOne_spread {name : String} {directives : List DirectiveUse} {pos : Pos}
    (h : scope.omission? (Selection.spread name directives pos).directives = none) :
    scope.collectedOne type left (.spread name directives pos) =
      match Members.get? name left with
      | none => []
      | some fragment =>
        if scope.applies fragment.condition type then
          scope.collected type (Members.erase name left) fragment.selections
        else [] := by
  simp [collectedOne, h]

theorem expand_eq (scope : Scope ω ε α) (left : List Fragment) (name : String) :
    scope.expand left name =
      (Members.get? name left).map fun fragment type data depth entries =>
        if scope.applies fragment.condition type then
          scope.select (scope.expand (Members.erase name left)) (.fragment name) fragment.selections type data depth
            entries
        else return (entries, []) := by
  rw [expand]
  split <;> simp [*]

/-- No response key is selected twice on one object, whatever its type, here or below. -/
inductive KeysDistinct (scope : Scope ω ε α) : List Fragment → List Selection → Prop
  | intro {left : List Fragment} {selections : List Selection}
      (here : ∀ type, ((scope.collected type left selections).map CollectedField.key).Nodup)
      (below : ∀ type, ∀ field ∈ scope.collected type left selections, KeysDistinct scope field.left field.children) :
      KeysDistinct scope left selections

end Scope

end GraphQL
