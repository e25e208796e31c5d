import GraphQL.Proofs.Execution.Outline

/-!
# What a selection set gives

Where resolvers are deterministic the data of a response is a function of the request and of the data that it starts
from. `Scope.selected` is that function: the entries that fields give one after the other, before those with the same
key are merged. No state is passed on between fields, so it can be reasoned about field by field.
-/

namespace GraphQL

/-- Resolvers give the same result whenever they are asked for the same field of the same data with the same
arguments. -/
structure Host.Deterministic {ω ε α : Type} (host : Host ω ε α) : Prop where
  object : ∀ o (head head' : FieldHead) args runtime runtime', head.key = head'.key → head.name = head'.name →
    (host.resolve o head args runtime).1 = (host.resolve o head' args runtime').1
  untyped : ∀ v (head head' : FieldHead) args, head.key = head'.key → head.name = head'.name →
    host.untyped.resolve v head args = host.untyped.resolve v head' args

/-- The fields have the same key, the same name and the same arguments. -/
structure FieldHead.Same (head head' : FieldHead) : Prop where
  key : head.key = head'.key
  name : head.name = head'.name
  args : ∀ name, Entries.get? name head.args = Entries.get? name head'.args

namespace Scope

variable {ω ε α : Type}

/-- The data that a field of data is resolved to in a runtime; none if that fails. -/
def resolved? (scope : Scope ω ε α) (runtime : Runtime ε α) (data : Data ω ε) (head : FieldHead) (args : Arguments) :
    Option (Data ω ε) :=
  match data with
  | .object o => (scope.service.host.resolve o head args runtime).1.toOption
  | .node n => (n.resolve scope.schema head.name args).toOption
  | .value v => (scope.service.host.untyped.resolve v head args).toOption
  | .null => some .null
  | .list _ | .endpoint _ => none

/-- The outline of the value of a declared field. Endpoints that are subscribed give no value. -/
def declaredOutline (scope : Scope ω ε α) (runtime : Runtime ε α) (decl : FieldDef) (data : Data ω ε) (depth : Nat)
    (head : FieldHead) : Outline ω ε :=
  match scope.arguments decl (ArgumentPlan.of decl head.args).order with
  | .error _ => .value .null
  | .ok args =>
    match scope.resolved? runtime data head args with
    | none => .value .null
    | some resolved =>
      match resolved, scope.subscribing && depth == scope.service.maxDepth with
      | .endpoint _, true => .value .null
      | resolved, _ => scope.outline depth decl.type resolved

/-- The outline of the value of a field; none if the key is left out. -/
def fieldOutline (scope : Scope ω ε α) (runtime : Runtime ε α) (parent : TypeDecl) (data : Data ω ε) (depth : Nat)
    (head : FieldHead) : Option (Outline ω ε) :=
  if head.name = "__typename" then some (.value (.string parent.name))
  else
    match scope.introspection? parent head with
    | some (.error _) => some (.value .null)
    | some (.ok (data, type)) => some (scope.outline depth type data)
    | none => (parent.field? head.name).map fun decl => scope.declaredOutline runtime decl data depth head

/-- The entry that a field gives, where `entries` are selected on the objects in its value. -/
def entry? (scope : Scope ω ε α) (runtime : Runtime ε α) (parent : TypeDecl) (data : Data ω ε) (depth : Nat)
    (head : FieldHead) (entries : TypeDecl → Data ω ε → List (String × Value)) : Option (String × Value) :=
  (scope.fieldOutline runtime parent data depth head).map fun outline => (head.key, outline.fill entries)

/-- The entries of an object in the value of a field at the given depth. -/
def selectedBelow (scope : Scope ω ε α) (runtime : Runtime ε α) :
    Nat → CollectedField → TypeDecl → Data ω ε → List (String × Value)
  | 0, _, _, _ => []
  | depth + 1, field, target, data =>
    mergeEntries []
      ((scope.collected target field.left field.children).filterMap fun below =>
        scope.entry? runtime target data depth below.head (scope.selectedBelow runtime depth below))

/-- The entries that fields give one after the other. -/
def selected (scope : Scope ω ε α) (runtime : Runtime ε α) (parent : TypeDecl) (data : Data ω ε) (depth : Nat)
    (fields : List CollectedField) : List (String × Value) :=
  fields.filterMap fun field =>
    scope.entry? runtime parent data depth field.head (scope.selectedBelow runtime depth field)

variable {scope : Scope ω ε α} {runtime : Runtime ε α}

theorem selectedBelow_succ (depth : Nat) (field : CollectedField) (target : TypeDecl) (data : Data ω ε) :
    scope.selectedBelow runtime (depth + 1) field target data =
      mergeEntries []
        (scope.selected runtime target data depth (scope.collected target field.left field.children)) := rfl

@[simp]
theorem selected_nil (parent : TypeDecl) (data : Data ω ε) (depth : Nat) :
    scope.selected runtime parent data depth [] = [] := rfl

theorem selected_append (parent : TypeDecl) (data : Data ω ε) (depth : Nat) (fields more : List CollectedField) :
    scope.selected runtime parent data depth (fields ++ more) =
      scope.selected runtime parent data depth fields ++ scope.selected runtime parent data depth more :=
  List.filterMap_append

theorem selected_singleton (parent : TypeDecl) (data : Data ω ε) (depth : Nat) (field : CollectedField) :
    scope.selected runtime parent data depth [field] =
      (scope.entry? runtime parent data depth field.head (scope.selectedBelow runtime depth field)).toList := by
  rw [selected, List.filterMap_cons, List.filterMap_nil]
  cases scope.entry? runtime parent data depth field.head (scope.selectedBelow runtime depth field) <;> rfl

/-- The outline of a field depends on its key, its name and its arguments only. -/
theorem fieldOutline_congr (hhost : scope.service.host.Deterministic) (parent : TypeDecl) (data : Data ω ε)
    (depth : Nat) {head head' : FieldHead} (h : head.Same head') :
    scope.fieldOutline runtime parent data depth head = scope.fieldOutline runtime parent data depth head' := by
  obtain ⟨hkey, hname, hargs⟩ := h
  have hintrospection : scope.introspection? parent head = scope.introspection? parent head' := by
    unfold introspection? namedNode
    rw [hname, hargs]
  have hplan : ∀ decl, (ArgumentPlan.of decl head.args).order = (ArgumentPlan.of decl head'.args).order := by
    intro decl
    simp only [ArgumentPlan.of, hargs]
  have hresolved : ∀ args, scope.resolved? runtime data head args = scope.resolved? runtime data head' args := by
    intro args
    unfold resolved?
    cases data with
    | object o => exact congrArg Except.toOption (hhost.object o head head' args runtime runtime hkey hname)
    | value v => exact congrArg Except.toOption (hhost.untyped v head head' args hkey hname)
    | node n => rw [hname]
    | null | list _ | endpoint _ => rfl
  unfold fieldOutline declaredOutline
  simp only [hname, hplan, hintrospection, hresolved]

/-! ### The document -/

/-- The scope in which another document is executed. -/
def withDocument (scope : Scope ω ε α) (document : Document) : Scope ω ε α := { scope with document }

section Document

variable (scope : Scope ω ε α) (document : Document)

private theorem omission?_document (uses : List DirectiveUse) :
    (scope.withDocument document).omission? uses = scope.omission? uses := by
  induction uses with
  | nil => rfl
  | cons use rest ih =>
    unfold omission?
    rw [ih]
    rfl

private theorem arguments_document (decl : FieldDef) (order : List (String × Option Value)) :
    (scope.withDocument document).arguments decl order = scope.arguments decl order := by
  induction order with
  | nil => rfl
  | cons arg rest ih =>
    unfold arguments
    rw [ih]
    rfl

private theorem outlineWithin_document (type : TypeRef) :
    (scope.withDocument document).outlineWithin type = scope.outlineWithin type := by
  induction type with
  | named name => rfl
  | unresolved name pos => rfl
  | nonNull inner ih =>
    funext data
    unfold outlineWithin
    rw [ih]
  | list item ih =>
    funext data
    unfold outlineWithin
    rw [ih]
    rfl

private theorem fieldOutline_document (runtime : Runtime ε α) (parent : TypeDecl) (data : Data ω ε) (depth : Nat)
    (head : FieldHead) :
    (scope.withDocument document).fieldOutline runtime parent data depth head =
      scope.fieldOutline runtime parent data depth head := by
  unfold fieldOutline declaredOutline outline
  simp only [arguments_document, outlineWithin_document]
  rfl

/-- Which fields are selected depends on the fragments only, not on the document that they are from. -/
theorem collected_document (type : TypeDecl) (left : List Fragment) (selections : List Selection) :
    (scope.withDocument document).collected type left selections = scope.collected type left selections := by
  match selections with
  | [] => rw [collected, collected]
  | selection :: rest =>
    rw [collected_cons, collected_cons, collected_document type left rest]
    congr 1
    unfold collectedOne
    rw [omission?_document]
    split
    · rfl
    · cases hselection : selection with
      | field head children => rfl
      | inline condition directives pos children =>
        dsimp only
        rw [collected_document type left children]
        rfl
      | spread name directives pos =>
        dsimp only
        cases hfragment : Members.get? name left with
        | none => rfl
        | some fragment =>
          dsimp only
          rw [collected_document type (Members.erase name left) fragment.selections]
          rfl
termination_by (left.length, sizeOf selections)
decreasing_by
  all_goals first
    | exact Prod.Lex.left _ _ (Members.length_erase_lt ‹_›)
    | (apply Prod.Lex.right
       simp only [*, List.cons.sizeOf_spec, Selection.inline.sizeOf_spec]
       omega)

private theorem selectedBelow_document (runtime : Runtime ε α) (depth : Nat) :
    (scope.withDocument document).selectedBelow runtime depth = scope.selectedBelow runtime depth := by
  induction depth with
  | zero => rfl
  | succ depth ih =>
    funext field target data
    rw [selectedBelow_succ, selectedBelow_succ, collected_document]
    unfold selected entry?
    simp only [ih, fieldOutline_document]

/-- What fields give does not depend on the document. -/
theorem selected_document (runtime : Runtime ε α) (parent : TypeDecl) (data : Data ω ε) (depth : Nat)
    (fields : List CollectedField) :
    (scope.withDocument document).selected runtime parent data depth fields =
      scope.selected runtime parent data depth fields := by
  unfold selected entry?
  simp only [selectedBelow_document, fieldOutline_document]

end Document

end Scope

end GraphQL
