import GraphQL.Execution.Operation
import GraphQL.Proofs.Request.Inlined

/-!
# Requests without what conditions leave out

Once the variables of a request have values, it is known which selections `@skip` and `@include` leave out.
`Document.pruned` is the request without them. What the conditions say is known only where each of them is a boolean
(`Document.Decides`).
-/

namespace GraphQL

namespace DirectiveUse

variable (values : List (String × Value)) (use : DirectiveUse)

/-- The use is of `@skip` or of `@include`. -/
def isConditional : Bool := use.name == "skip" || use.name == "include"

/-- What the condition says: it is a boolean, or a variable whose value is one. -/
def truth? : Option Bool :=
  match use.arg? "if" with
  | some (.bool b) => some b
  | some (.var name) => (Entries.get? name values).bind Value.asBool?
  | _ => none

/-- The use is of a `@skip` that is true or of an `@include` that is false. -/
def omits : Bool :=
  (use.name == "skip" && use.truth? values == some true) || (use.name == "include" && use.truth? values == some false)

end DirectiveUse

namespace Selection

mutual

/-- The uses of directives in a selection at any depth, save those in fragments that it spreads. -/
def uses : Selection → List DirectiveUse
  | field head children => head.directives ++ usesOf children
  | inline _ directives _ children => directives ++ usesOf children
  | spread _ directives _ => directives

/-- The uses of directives in a selection set at any depth. -/
def usesOf : List Selection → List DirectiveUse
  | [] => []
  | selection :: rest => uses selection ++ usesOf rest

end

mutual

/-- The selection without the selections in it that are left out. -/
def pruned (values : List (String × Value)) : Selection → Selection
  | field head children => field head (prunedOf values children)
  | inline condition directives pos children => inline condition directives pos (prunedOf values children)
  | spread fragment directives pos => spread fragment directives pos

/-- The selection set without the selections, at any depth, that are left out. -/
def prunedOf (values : List (String × Value)) : List Selection → List Selection
  | [] => []
  | selection :: rest =>
    if selection.directives.any (·.omits values) then prunedOf values rest
    else pruned values selection :: prunedOf values rest

end

theorem directives_subset_uses (selection : Selection) : selection.directives ⊆ uses selection := by
  cases selection with
  | field head children =>
    rw [uses]
    exact List.subset_append_left _ _
  | inline condition directives pos children =>
    rw [uses]
    exact List.subset_append_left _ _
  | spread fragment directives pos =>
    rw [uses]
    exact List.Subset.refl _

mutual

private theorem omits_pruned (values : List (String × Value)) (selection : Selection)
    (hkept : selection.directives.any (·.omits values) = false) :
    ∀ use ∈ uses (pruned values selection), use.omits values = false := by
  have hown : ∀ use ∈ selection.directives, use.omits values = false := by simpa using hkept
  cases selection with
  | field head children =>
    rw [pruned, uses]
    exact fun use huse => (List.mem_append.1 huse).elim (hown use) (omits_prunedOf values children use)
  | inline condition directives pos children =>
    rw [pruned, uses]
    exact fun use huse => (List.mem_append.1 huse).elim (hown use) (omits_prunedOf values children use)
  | spread fragment directives pos =>
    rw [pruned, uses]
    exact hown

/-- Nothing that is left of a selection set is to be left out. -/
theorem omits_prunedOf (values : List (String × Value)) :
    ∀ selections : List Selection, ∀ use ∈ usesOf (prunedOf values selections), use.omits values = false
  | [] => by
    rw [prunedOf, usesOf]
    exact fun use huse => absurd huse List.not_mem_nil
  | selection :: rest => by
    rw [prunedOf]
    cases homitted : selection.directives.any (·.omits values) with
    | true => exact omits_prunedOf values rest
    | false =>
      rw [if_neg Bool.false_ne_true, usesOf]
      exact fun use huse => (List.mem_append.1 huse).elim (omits_pruned values selection homitted use)
        (omits_prunedOf values rest use)

end

/-- Every condition in the selection set is a boolean. -/
def Decided (values : List (String × Value)) (selections : List Selection) : Prop :=
  ∀ use ∈ usesOf selections, use.isConditional = true → (use.truth? values).isSome = true

instance (values : List (String × Value)) (selections : List Selection) : Decidable (Decided values selections) :=
  inferInstanceAs (Decidable (∀ use ∈ usesOf selections, _))

namespace Decided

variable {values : List (String × Value)} {selection : Selection} {selections below : List Selection}

theorem first (h : Decided values (selection :: selections)) :
    ∀ use ∈ selection.directives, use.isConditional = true → (use.truth? values).isSome = true := by
  unfold Decided at h
  rw [usesOf] at h
  exact fun use huse => h use (List.mem_append_left _ (selection.directives_subset_uses huse))

theorem rest (h : Decided values (selection :: selections)) : Decided values selections := by
  unfold Decided at h
  rw [usesOf] at h
  exact fun use huse => h use (List.mem_append_right _ huse)

theorem children (h : Decided values (selection :: selections)) (hbelow : usesOf below ⊆ uses selection) :
    Decided values below := by
  unfold Decided at h
  rw [usesOf] at h
  exact fun use huse => h use (List.mem_append_left _ (hbelow huse))

end Decided

end Selection

/-- The fragment without the selections that are left out. -/
def Fragment.pruned (values : List (String × Value)) (fragment : Fragment) : Fragment :=
  { fragment with selections := Selection.prunedOf values fragment.selections }

/-- The operation without the selections that are left out. -/
def Operation.pruned (values : List (String × Value)) (operation : Operation) : Operation :=
  { operation with selections := Selection.prunedOf values operation.selections }

namespace Document

/-- The request without the selections that are left out where variables have the given values. -/
def pruned (document : Document) (values : List (String × Value)) : Document where
  operations := document.operations.map (.pruned values)
  fragments := document.fragments.map (.pruned values)

/-- Every condition in the selection set and in the fragments that it gets to is a boolean. -/
structure Decides (document : Document) (values : List (String × Value)) (selections : List Selection) : Prop where
  own : Selection.Decided values selections
  fragments : ∀ mention ∈ Selection.spreadsOf selections, ∀ name fragment,
    Relation.ReflTransGen document.Spreads mention.1 name → document.fragment? name = some fragment →
      Selection.Decided values fragment.selections

namespace Decides

variable {document : Document} {values : List (String × Value)} {selection : Selection}
  {selections below : List Selection} {name : String} {directives : List DirectiveUse} {pos : Pos} {fragment : Fragment}

theorem rest (h : document.Decides values (selection :: selections)) : document.Decides values selections where
  own := h.own.rest
  fragments := fun mention hmention => h.fragments mention <| by
    rw [Selection.spreadsOf]
    exact List.mem_append_right _ hmention

theorem children (h : document.Decides values (selection :: selections))
    (huses : Selection.usesOf below ⊆ Selection.uses selection)
    (hspreads : Selection.spreadsOf below ⊆ Selection.spreads selection) : document.Decides values below where
  own := h.own.children huses
  fragments := fun mention hmention => h.fragments mention <| by
    rw [Selection.spreadsOf]
    exact List.mem_append_left _ (hspreads hmention)

/-- Where a fragment is spread, the conditions in it and in those that it gets to are booleans, too. -/
theorem enter (h : document.Decides values (.spread name directives pos :: selections))
    (hfragment : document.fragment? name = some fragment) : document.Decides values fragment.selections := by
  have hmention : (name, pos) ∈ Selection.spreadsOf (.spread name directives pos :: selections) := by
    rw [Selection.spreadsOf, Selection.spreads]
    exact List.mem_cons_self
  refine ⟨h.fragments _ hmention name fragment .refl hfragment, fun inner hinner other found hother hfound => ?_⟩
  exact h.fragments _ hmention other found (hother.head (spreads_of_mem hfragment hinner)) hfound

end Decides

end Document

end GraphQL
