import GraphQL.Proofs.Execution.Copies
import GraphQL.Proofs.Execution.Described
import GraphQL.Proofs.Request.Inlined

/-!
# Introspection

A query that asks for nothing but a description of the schema is answered with that description, and without errors
(`Service.execute_introspection`). Every step of the execution could report one: a field without a declaration, an
argument without a value, data that is not of the type of its field, a spread of a fragment that is being executed.
-/

namespace GraphQL

/-! ### Requests without directives -/

namespace Selection

mutual

/-- There is no directive on the selection, nor on what is selected inside. -/
def Bare : Selection → Prop
  | field head children => head.directives = [] ∧ AllBare children
  | inline _ directives _ children => directives = [] ∧ AllBare children
  | spread _ directives _ => directives = []

/-- There are no directives in the selection set. -/
def AllBare : List Selection → Prop
  | [] => True
  | selection :: rest => Bare selection ∧ AllBare rest

end

end Selection

/-- There are no directives in the selection sets of the request. -/
structure Document.Bare (document : Document) : Prop where
  operations : ∀ operation ∈ document.operations, Selection.AllBare operation.selections
  fragments : ∀ fragment ∈ document.fragments, Selection.AllBare fragment.selections

namespace Scope

variable {ω ε α : Type} {scope : Scope ω ε α} {inv : Run ε α → Prop}

/-! ### Selection sets that are executed without errors -/

/-- The selection set of the definition has no directives, its fields are found by their places, and all fragments that
it gets to are left. -/
structure Ready (scope : Scope ω ε α) (left : List Fragment) (owner : PlanOwner) (selections : List Selection) :
    Prop where
  leaves : scope.document.Leaves left
  heads : ∀ head ∈ Selection.headsOf selections, scope.document.head? owner head.pos = some head
  provides : scope.document.Provides left (Selection.spreadsOf selections)
  bare : Selection.AllBare selections

/-- Places tell the fields of the request apart, no fragment gets back to itself, and there are no directives. -/
structure Regular (document : Document) : Prop where
  placed : document.Placed
  acyclic : document.Acyclic
  bare : document.Bare

namespace Ready

variable {left : List Fragment} {owner : PlanOwner} {directives : List DirectiveUse} {pos : Pos}
  {children rest : List Selection}

/-- There is no directive that could leave the selection out. -/
theorem omission {selection : Selection} (h : scope.Ready left owner (selection :: rest)) :
    scope.omission? selection.directives = none := by
  have hdirectives : selection.directives = [] := by
    have hbare := h.bare.1
    cases selection with
    | field head children => exact hbare.1
    | inline condition directives pos children => exact hbare.1
    | spread name directives pos => exact hbare
  rw [hdirectives, omission?]

theorem field {head : FieldHead} (h : scope.Ready left owner (.field head children :: rest)) :
    scope.document.head? owner head.pos = some head ∧ scope.Ready left owner children ∧
      scope.Ready left owner rest := by
  obtain ⟨hleaves, hheads, hprovides, ⟨-, hchildren⟩, hrest⟩ := h
  rw [Selection.headsOf, Selection.heads, List.forall_mem_append, List.forall_mem_cons] at hheads
  rw [Selection.spreadsOf, Selection.spreads] at hprovides
  exact ⟨hheads.1.1, ⟨hleaves, hheads.1.2, hprovides.append.1, hchildren⟩,
    ⟨hleaves, hheads.2, hprovides.append.2, hrest⟩⟩

theorem inline {condition : Option String}
    (h : scope.Ready left owner (.inline condition directives pos children :: rest)) :
    scope.Ready left owner children ∧ scope.Ready left owner rest := by
  obtain ⟨hleaves, hheads, hprovides, ⟨-, hchildren⟩, hrest⟩ := h
  rw [Selection.headsOf, Selection.heads, List.forall_mem_append] at hheads
  rw [Selection.spreadsOf, Selection.spreads] at hprovides
  exact ⟨⟨hleaves, hheads.1, hprovides.append.1, hchildren⟩, ⟨hleaves, hheads.2, hprovides.append.2, hrest⟩⟩

/-- A fragment that is spread is there, and its selections are ready to be executed in the place of the spread. -/
theorem spread (hdocument : Regular scope.document) {name : String}
    (h : scope.Ready left owner (.spread name directives pos :: rest)) :
    (∃ fragment, Members.get? name left = some fragment ∧
        scope.Ready (Members.erase name left) (.fragment name) fragment.selections) ∧
      scope.Ready left owner rest := by
  obtain ⟨hleaves, hheads, hprovides, -, hrest⟩ := h
  rw [Selection.headsOf, Selection.heads, List.nil_append] at hheads
  rw [Selection.spreadsOf, Selection.spreads] at hprovides
  obtain ⟨hfound, hsome⟩ := hprovides.append.1.found
  obtain ⟨fragment, hfragment⟩ := Option.isSome_iff_exists.1 hsome
  have hleft := hfound.trans hfragment
  refine ⟨⟨fragment, hleft, hleaves.erase name, fun head hhead => ?_, ?_, ?_⟩,
    ⟨hleaves, hheads, hprovides.append.2, hrest⟩⟩
  · exact hdocument.placed.head? (hleaves.selections? hleft) hhead
  · exact hprovides.append.1.enter hdocument.acyclic hfragment
  · exact hdocument.bare.fragments fragment (Members.mem_of_get? hfragment)

end Ready

section Select

variable {type : TypeDecl} {data : Data ω ε} {depth : Nat} {value : CollectedField → Value} {left : List Fragment}
  {owner : PlanOwner}

/-- A selection and those after it give their entries one after the other. -/
private theorem select_cons_gives {selection : Selection} {rest : List Selection} {entries : List (String × Value)}
    (homission : scope.omission? selection.directives = none)
    (hone : Ensures inv (scope.selectOne (scope.expand left) owner selection type data depth entries)
      (· = (mergeEntries entries (CollectedField.entries value (scope.collectedOne type left selection)), [])))
    (hrest : ∀ entries, Ensures inv (scope.select (scope.expand left) owner rest type data depth entries)
      (· = (mergeEntries entries (CollectedField.entries value (scope.collected type left rest)), []))) :
    Ensures inv (scope.select (scope.expand left) owner (selection :: rest) type data depth entries)
      (· = (mergeEntries entries (CollectedField.entries value (scope.collected type left (selection :: rest))), [])) := by
  rw [select, homission, collected_cons]
  refine hone.bind fun first hfirst => (hrest first.1).bind fun second hsecond => .pure ?_
  rw [hfirst] at hsecond
  rw [hfirst, hsecond, CollectedField.entries, CollectedField.entries, CollectedField.entries, List.map_append,
    mergeEntries_append]
  rfl

/-- Where every field that is selected gives a value without an error, the selection set gives all of them. -/
theorem select_gives (hdocument : Regular scope.document) (type : TypeDecl) (data : Data ω ε) (depth : Nat)
    (value : CollectedField → Value) (left : List Fragment) (owner : PlanOwner) (selections : List Selection)
    (entries : List (String × Value)) (hready : scope.Ready left owner selections)
    (hfield : ∀ field ∈ scope.collected type left selections, ∀ owner,
      scope.Ready field.left owner field.children → scope.document.head? owner field.head.pos = some field.head →
        Ensures inv (scope.field owner field.head field.children
          (fun type data depth => scope.select (scope.expand field.left) owner field.children type data depth [])
          type data depth) (· = (some (value field), []))) :
    Ensures inv (scope.select (scope.expand left) owner selections type data depth entries)
      (· = (mergeEntries entries (CollectedField.entries value (scope.collected type left selections)), [])) := by
  -- a fragment is entered with what is left without it, so the induction follows what is entered, not the syntax alone
  induction left, selections using Selection.entering generalizing owner entries with
  | nil left =>
    rw [select, collected]
    exact .pure (by rw [CollectedField.entries, List.map_nil, mergeEntries_nil])
  | field left head children rest ihchildren ihrest =>
    have homission := hready.omission
    obtain ⟨hhead, hchildren, hrest⟩ := hready.field
    rw [collected_cons, collectedOne_field homission, List.forall_mem_append, List.forall_mem_singleton] at hfield
    refine select_cons_gives homission ?_ fun entries => ihrest owner entries hrest hfield.2
    rw [selectOne, collectedOne_field homission]
    refine (hfield.1 owner hchildren hhead).bind fun result hresult => .pure ?_
    rw [hresult]
    simp [CollectedField.entries, CollectedField.key, mergeEntries_cons]
  | inline left condition directives pos children rest ihchildren ihrest =>
    have homission := hready.omission
    obtain ⟨hchildren, hrest⟩ := hready.inline
    rw [collected_cons, collectedOne_inline homission, List.forall_mem_append] at hfield
    refine select_cons_gives homission ?_ fun entries => ihrest owner entries hrest hfield.2
    rw [selectOne, collectedOne_inline homission]
    split
    · next happlies =>
      rw [if_pos happlies] at hfield
      exact ihchildren owner entries hchildren hfield.1
    · exact .pure (by rw [CollectedField.entries, List.map_nil, mergeEntries_nil])
  | missing left name directives pos rest hmissing ihrest =>
    -- a fragment that is not left would be one that is being executed: the request would have a cycle
    obtain ⟨⟨fragment, hfragment, -⟩, -⟩ := hready.spread hdocument
    cases hmissing.symm.trans hfragment
  | found left name directives pos rest fragment hfragment ihselections ihrest =>
    have homission := hready.omission
    obtain ⟨⟨fragment', hfragment', hselections⟩, hrest⟩ := hready.spread hdocument
    cases hfragment.symm.trans hfragment'
    rw [collected_cons, collectedOne_spread homission, hfragment, List.forall_mem_append] at hfield
    refine select_cons_gives homission ?_ fun entries => ihrest owner entries hrest hfield.2
    rw [selectOne, collectedOne_spread homission, expand_eq, hfragment]
    dsimp only [Option.map_some]
    split
    · next happlies =>
      dsimp only at hfield
      rw [if_pos happlies] at hfield
      refine (ihselections (.fragment name) entries hselections hfield.1).bind fun result hresult => .pure ?_
      rw [hresult]
      rfl
    · exact .pure (by simp [CollectedField.entries])

end Select

/-! ### Completing what nodes give -/

section Completion

variable {shape : Shape ω ε α} {depth : Nat} {below : SchemaNode → Value} {name : String}

/-- The selection set shows the parts of the schema whose type has the given name. -/
def ShowsParts (scope : Scope ω ε α) (inv : Run ε α → Prop) (shape : Shape ω ε α) (depth : Nat)
    (below : SchemaNode → Value) (name : String) : Prop :=
  ∀ type node, scope.schema.type? name = some type → node.typeName = name → node.PartOf scope.schema →
    Ensures inv (shape type (.node node) depth) fun result => result.2 = [] ∧ .object result.1 = below node

/-- The data was completed without an error, to the value that it is shown as. -/
def Shows (below : SchemaNode → Value) (data : Data ω ε) (result : Outcome Value) : Prop :=
  result = (data.shown below, []) ∧ (data.isNull = false → result.1.isNull = false)

private theorem shows_null {data : Data ω ε} (h : data.isNull = true) : Shows below data (.null, []) :=
  ⟨by rw [Data.shown_of_isNull h], fun hne => by rw [h] at hne; cases hne⟩

private theorem completeNamed_shows (hschema : scope.schema.DescribesItself)
    (hshape : scope.ShowsParts inv shape (depth - 1) below name) {data : Data ω ε}
    (hdata : data.OfType scope.schema (.named name)) :
    Ensures inv (scope.completeNamed shape depth name data) (Shows below data) := by
  unfold completeNamed
  rcases hdata with hnull | ⟨node, rfl, hname, hpart⟩ | ⟨v, rfl, hleaf⟩
  · rw [if_pos hnull]
    exact .pure (shows_null hnull)
  · obtain ⟨type, body, htype, hbody⟩ := hschema.object node
    rw [hname] at htype
    simp only [Data.isNull, Bool.false_eq_true, if_false, htype, hbody]
    refine (hshape type node htype hname hpart).bind fun result hresult => .pure ?_
    obtain ⟨herrors, hvalue⟩ := hresult
    refine ⟨?_, fun _ => rfl⟩
    rw [Data.shown, ← hvalue, herrors]
  · obtain ⟨type, htype, hisLeaf, hcoerce⟩ := hschema.leaf hleaf
    have hnotNull : v.isNull = false := by cases hleaf <;> rfl
    have hcomplete : scope.completeLeaf name (.value v) = (v, []) := by
      simp [completeLeaf, leafValue, Coercion.coerceOut, hcoerce scope.coercion rfl]
    have hshown : Shows below (.value v : Data ω ε) (v, []) := ⟨rfl, fun _ => hnotNull⟩
    simp only [Data.isNull, hnotNull, Bool.false_eq_true, if_false, htype]
    cases hbody : type.body with
    | scalar _ | enum _ => exact .pure (hcomplete ▸ hshown)
    | object _ | interface _ | union _ | input _ | schema _ => simp [TypeDecl.isLeaf, hbody] at hisLeaf

private theorem completeItems_shows {complete : Data ω ε → Execution ε α (Outcome Value)} {items : List (Data ω ε)}
    (h : ∀ data ∈ items, Ensures inv (complete data) (Shows below data)) :
    ∀ first, Ensures inv (completeItems complete first (items.map .ok)) (· = (items.map (Data.shown below), [])) := by
  induction items with
  | nil => exact fun _ => .pure rfl
  | cons data rest ih =>
    intro first
    obtain ⟨hdata, hrest⟩ := List.forall_mem_cons.1 h
    rw [List.map_cons, completeItems]
    refine hdata.bind fun result hresult => (ih hrest (first + 1)).bind fun results hresults => .pure ?_
    rw [hresult.1, hresults]
    rfl

private theorem completeWithin_shows (hschema : scope.schema.DescribesItself) (type : TypeRef)
    (hshape : scope.ShowsParts inv shape (depth - 1) below type.baseName) :
    ∀ data : Data ω ε, data.OfType scope.schema type →
      Ensures inv (scope.completeWithin shape depth type data) (Shows below data) := by
  induction type with
  | named name => exact fun data hdata => completeNamed_shows hschema hshape hdata
  | unresolved name pos => exact fun data hdata => completeNamed_shows hschema hshape hdata
  | list item ih =>
    intro data hdata
    rw [completeWithin]
    rcases hdata with hnull | ⟨items, rfl, hitems⟩
    · have hitems : scope.items? (TypeRef.list item).text data = .ok none := by
        cases data with
        | null => rfl
        | value v => rw [Value.isNull_iff.1 hnull]; rfl
        | list _ | object _ | node _ | endpoint _ => cases hnull
      rw [hitems]
      exact .pure (shows_null hnull)
    · rw [items?]
      refine (completeItems_shows (fun data hdata => ih hshape data (hitems data hdata)) 0).bind
        fun result hresult => .pure ⟨?_, fun _ => rfl⟩
      rw [hresult, Data.shown, Data.shownItems_eq_map]
  | nonNull inner ih =>
    intro data hdata
    rw [completeWithin]
    refine (ih hshape data hdata.2).bind fun result hresult => ?_
    obtain ⟨v, errors⟩ := result
    have hnotNull : v.isNull = false := hresult.2 hdata.1
    dsimp only
    rw [hnotNull, Bool.false_and, if_neg Bool.false_ne_true]
    exact .pure hresult

/-- Data of a type is completed without errors. Without depth it is given as it is. -/
theorem complete_shows (hschema : scope.schema.DescribesItself) (hbelow : depth = 0 → ∀ node, below node = .null)
    {type : TypeRef} (hshape : depth ≠ 0 → scope.ShowsParts inv shape (depth - 1) below type.baseName)
    {data : Data ω ε} (hdata : data.OfType scope.schema type) :
    Ensures inv (scope.complete shape depth type data) (· = (data.shown below, [])) := by
  unfold complete
  split
  · next hdepth =>
    -- what is given as it is has `null` where there are parts of the schema
    obtain rfl : below = fun _ => .null := funext (hbelow hdepth)
    exact .pure (by rw [Data.shown_null])
  · next hdepth => exact (completeWithin_shows hschema type (hshape hdepth) data hdata).mono fun _ h => h.1

end Completion

/-! ### Fields -/

section Field

variable {owner : PlanOwner} {parent : TypeDecl} {decl : FieldDef} {head : FieldHead}

/-- Valid arguments have values. -/
private theorem arguments_of_valid (h : scope.ValidArguments decl head) :
    ∃ args, scope.arguments decl (ArgumentPlan.of decl head.args).order = .ok args := by
  have horder : ∀ entry ∈ (ArgumentPlan.of decl head.args).order, entry.2 = Entries.get? entry.1 head.args :=
    List.forall_mem_map.2 fun _ _ => rfl
  generalize (ArgumentPlan.of decl head.args).order = order at horder
  induction order with
  | nil => exact ⟨[], rfl⟩
  | cons entry rest ih =>
    obtain ⟨hentry, hrest⟩ := List.forall_mem_cons.1 horder
    obtain ⟨args, hargs⟩ := ih hrest
    obtain ⟨name, literal⟩ := entry
    obtain rfl : literal = Entries.get? name head.args := hentry
    rw [arguments]
    cases harg : Members.get? name decl.args with
    | none => exact ⟨args, hargs⟩
    | some arg =>
      obtain rfl : arg.name = name := Members.name_of_get? harg
      have hvalue : ∃ v, scope.argument? arg (Entries.get? arg.name head.args) = .ok v := by
        unfold argument?
        cases hgiven : scope.given? (Entries.get? arg.name head.args) with
        | some v =>
          obtain ⟨w, hw⟩ := h.given arg (Members.mem_of_get? harg) v hgiven
          exact ⟨some w, by simp [hw]⟩
        | none =>
          have hrequired := h.required arg (Members.mem_of_get? harg) hgiven
          cases hdefault : arg.default with
          | some v => exact ⟨some v, rfl⟩
          | none =>
            have hnullable : arg.type.isNonNull = false := by simpa [InputValue.isRequired, hdefault] using hrequired
            exact ⟨none, by simp [hnullable]⟩
      obtain ⟨v, hv⟩ := hvalue
      simp only [hv, hargs]
      cases v with
      | none => exact ⟨args, rfl⟩
      | some v => exact ⟨_, rfl⟩

/-- A field with valid arguments gets them, and nothing is reported. -/
private theorem fieldArguments_gives (hparent : scope.schema.type? parent.name = some parent)
    (hhead : scope.document.head? owner head.pos = some head) (hdecl : parent.field? head.name = some decl)
    (h : scope.ValidArguments decl head) :
    Ensures scope.Tracks (scope.fieldArguments owner parent decl head)
      (· = (some (scope.argumentsOn parent.name head), [])) := by
  have hdeclOn : scope.declOn? parent.name head.name = some decl := by
    rw [declOn?, hparent]
    exact hdecl
  obtain ⟨args, hargs⟩ := arguments_of_valid h
  have hknown : (ArgumentPlan.of decl head.args).unknown = [] :=
    List.filter_eq_nil_iff.2 fun name hname => by simp [h.declared name hname]
  unfold fieldArguments argumentsOn
  rw [hdeclOn]
  refine (plan_tracks hparent hhead hdecl).bind fun result hresult => ?_
  obtain ⟨plan, isNew⟩ := result
  obtain rfl : plan = ArgumentPlan.of decl head.args := hresult
  dsimp only
  rw [hargs, hknown]
  refine .pure ?_
  cases isNew <;> rfl

/-- A declared field with valid arguments, which is resolved to data of its type, is shown without errors. -/
private theorem declaredField_shows (hschema : scope.schema.DescribesItself) (hsubscribing : scope.subscribing = false)
    {shape : Shape ω ε α} {depth : Nat} {below : SchemaNode → Value} (hbelow : depth = 0 → ∀ node, below node = .null)
    (hshape : depth ≠ 0 → scope.ShowsParts scope.Tracks shape (depth - 1) below decl.type.baseName)
    {node : SchemaNode} (hparent : scope.schema.type? parent.name = some parent)
    (hhead : scope.document.head? owner head.pos = some head) (hdecl : parent.field? head.name = some decl)
    (hvalid : scope.ValidArguments decl head) {data : Data ω ε}
    (hdata : node.resolve scope.schema head.name (scope.argumentsOn parent.name head) = .ok data)
    (hofType : data.OfType scope.schema decl.type) (children : List Selection) :
    Ensures scope.Tracks (scope.declaredField owner head children shape parent decl (.node node) depth)
      (· = (data.shown below, [])) := by
  unfold declaredField
  refine (fieldArguments_gives hparent hhead hdecl hvalid).bind fun result hresult => ?_
  rw [hresult]
  obtain ⟨args, hargs⟩ := arguments_of_valid hvalid
  have hargumentsOn : scope.argumentsOn parent.name head = args := by
    rw [argumentsOn, declOn?, hparent, Option.bind_some, hdecl]
    simp [hargs, Except.toOption]
  rw [hargumentsOn] at hdata ⊢
  dsimp only [dispatch]
  rw [bind_assoc]
  refine (note_tracks ⟨hparent, hdecl, hargs⟩).bind fun _ _ => ?_
  rw [pure_bind, hdata, hsubscribing, Bool.false_and]
  have hcomplete : Ensures scope.Tracks (scope.complete shape depth decl.type data >>= fun result =>
      pure (result.1, [] ++ result.2)) (· = (data.shown below, [])) :=
    (complete_shows hschema hbelow hshape hofType).bind fun result hresult => .pure hresult
  cases data <;> exact hcomplete

/-- A built-in field of a part of the schema is shown without errors. -/
private theorem field_shows (hschema : scope.schema.Sound) (hsubscribing : scope.subscribing = false)
    {shape : Shape ω ε α} {depth : Nat} {below : SchemaNode → Value} (hbelow : depth = 0 → ∀ node, below node = .null)
    {node : SchemaNode} (hnode : node.PartOf scope.schema) (hparent : scope.schema.type? node.typeName = some parent)
    (hhead : scope.document.head? owner head.pos = some head)
    (hasked : head.name = "__typename" ∨ (Introspection.field? node.typeName head.name).isSome = true ∧
      ∀ decl, scope.declOn? node.typeName head.name = some decl → scope.ValidArguments decl head)
    (hshape : ∀ ref, Introspection.field? node.typeName head.name = some ref →
      depth ≠ 0 → scope.ShowsParts scope.Tracks shape (depth - 1) below ref.baseName)
    (children : List Selection) :
    Ensures scope.Tracks (scope.field owner head children shape parent (.node node) depth)
      (· = (some (scope.shownField below node head), [])) := by
  have hname : parent.name = node.typeName := Members.name_of_get? hparent
  rw [← hname] at hparent hasked hshape
  unfold field shownField
  by_cases htypename : head.name = "__typename"
  · rw [if_pos htypename, if_pos htypename, hname]
    exact .pure rfl
  · rw [if_neg htypename, if_neg htypename]
    obtain ⟨hbuiltin, hvalid⟩ := hasked.resolve_left htypename
    obtain ⟨ref, href⟩ := Option.isSome_iff_exists.1 hbuiltin
    -- the fields that introspection adds to the root of queries come first, even if that is a type of introspection
    have hnotAdded := Introspection.not_added href
    have hnone : scope.introspection? parent head = none := by
      simp only [List.mem_cons, List.not_mem_nil, or_false, not_or] at hnotAdded
      simp [introspection?, hnotAdded]
    obtain ⟨parent', -, hparent', -, hfields⟩ := hschema.describes.object node
    rw [← hname] at hparent' hfields
    cases hparent.symm.trans hparent'
    obtain ⟨decl, hdecl, htype⟩ := hfields head.name ref href
    have hdeclOn : scope.declOn? parent.name head.name = some decl := by
      rw [declOn?, hparent]
      exact hdecl
    obtain ⟨data, hdata, hofType⟩ :=
      SchemaNode.resolve_ofType hschema hnode (scope.argumentsOn parent.name head) (hname ▸ href)
    rw [hnone, ← hname, hdata]
    dsimp only
    rw [hdecl]
    rw [← htype] at hofType
    refine (declaredField_shows hschema.describes hsubscribing hbelow (fun hdepth => ?_) hparent hhead hdecl
      (hvalid decl hdeclOn) hdata hofType children).bind fun result hresult => .pure ?_
    · rw [htype]
      exact hshape ref (hname ▸ href) hdepth
    · rw [hresult]

end Field

/-! ### Selection sets on parts of a schema -/

/-- What is selected on the parts of a schema is shown without errors at every place. -/
def ShowsAll (scope : Scope ω ε α) (depth : Nat) (below : List Fragment → List Selection → SchemaNode → Value) : Prop :=
  ∀ name left owner selections, scope.Ready left owner selections → scope.Asks name left selections →
    scope.ShowsParts scope.Tracks
      (fun type data depth => scope.select (scope.expand left) owner selections type data depth []) depth
      (below left selections) name

/-- One level of a selection set is shown if those below are. -/
private theorem showsAll_step (hdocument : Regular scope.document) (hschema : scope.schema.Sound)
    (hsubscribing : scope.subscribing = false) {depth : Nat}
    (hbelow : depth ≠ 0 → scope.ShowsAll (depth - 1) (scope.shown depth)) :
    scope.ShowsAll depth (scope.shown (depth + 1)) := by
  rintro _ left owner selections hready ⟨hkeys, hfields, hinside⟩ type node htype rfl hnode
  have hcollected : scope.fieldsOn node.typeName left selections = scope.collected type left selections := by
    rw [fieldsOn, htype]
  have hselect := select_gives hdocument type (.node node) depth
    (fun field => scope.shownField (scope.shown depth field.left field.children) node field.head) left owner selections []
    hready fun field hfield owner hchildren hhead =>
      field_shows hschema hsubscribing (by rintro rfl _; rfl) hnode htype hhead (hfields field (hcollected ▸ hfield))
        (fun ref href hdepth =>
          hbelow hdepth ref.baseName _ _ _ hchildren (hinside field (hcollected ▸ hfield) ref href))
        field.children
  refine hselect.mono fun result hresult => ?_
  rw [hresult]
  refine ⟨rfl, ?_⟩
  rw [mergeEntries_of_nodup (by rw [List.nil_append, keys_entries, ← hcollected]; exact hkeys), List.nil_append, shown,
    hcollected]

/-- Selection sets that ask for built-in fields show parts of the schema without errors, by induction on the depth that
is left. -/
theorem showsAll (hdocument : Regular scope.document) (hschema : scope.schema.Sound)
    (hsubscribing : scope.subscribing = false) (depth : Nat) : scope.ShowsAll depth (scope.shown (depth + 1)) := by
  induction depth with
  | zero => exact showsAll_step hdocument hschema hsubscribing fun hdepth => absurd rfl hdepth
  | succ depth ih => exact showsAll_step hdocument hschema hsubscribing fun _ => ih

/-- A field that introspection adds to the root of queries is shown without errors. -/
private theorem rootField_shows (hdocument : Regular scope.document) (hschema : scope.schema.Sound)
    (hsubscribing : scope.subscribing = false) {root : TypeDecl} (hroot : scope.schema.rootType? .query = some root)
    {field : CollectedField} {owner : PlanOwner} (hready : scope.Ready field.left owner field.children)
    (hasked : field.head.name = "__typename" ∨
      field.head.name = "__schema" ∧ scope.Asks "__Schema" field.left field.children ∨
      field.head.name = "__type" ∧ (scope.typeAsked? field.head).isSome = true ∧
        scope.Asks "__Type" field.left field.children)
    (data : Data ω ε) :
    Ensures scope.Tracks (scope.field owner field.head field.children
        (fun type data depth => scope.select (scope.expand field.left) owner field.children type data depth [])
        root data scope.service.maxDepth)
      (· = (some (scope.shownRoot root.name field), [])) := by
  have hisRoot : scope.isQueryRoot root = true := by simp [isQueryRoot, hroot]
  have hcomplete {name : String} (hasks : scope.Asks name field.left field.children) {type : TypeRef}
      (htype : type.baseName = name) {data : Data ω ε} (hdata : data.OfType scope.schema type) :=
    @complete_shows ω ε α scope scope.Tracks
      (fun type data depth => scope.select (scope.expand field.left) owner field.children type data depth [])
      scope.service.maxDepth (scope.shown scope.service.maxDepth field.left field.children) hschema.describes
      (fun hdepth node => by rw [hdepth, shown]) type
      (fun hdepth => by
        obtain ⟨depth, hmax⟩ := Nat.exists_eq_succ_of_ne_zero hdepth
        rw [hmax, htype]
        exact showsAll hdocument hschema hsubscribing depth name _ _ _ hready hasks) data hdata
  unfold Scope.field shownRoot
  rcases hasked with hname | ⟨hname, hasks⟩ | ⟨hname, hgiven, hasks⟩
  · rw [if_pos hname, if_pos hname]
    exact .pure rfl
  · have htypename : field.head.name ≠ "__typename" := by simp [hname]
    have hpart : SchemaNode.schema.PartOf scope.schema := by simp [SchemaNode.PartOf, hroot]
    have hintrospected : scope.introspection? root field.head =
        some (.ok (.node .schema, .nonNull (.named "__Schema"))) := by
      simp [introspection?, hisRoot, hname]
    rw [if_neg htypename, if_neg htypename, if_pos hname, hintrospected]
    refine (hcomplete hasks rfl ((Data.ofType_node .schema hpart).nonNull rfl)).bind fun result hresult => .pure ?_
    rw [hresult]
    rfl
  · have htypename : field.head.name ≠ "__typename" := by simp [hname]
    have hschemaName : field.head.name ≠ "__schema" := by simp [hname]
    obtain ⟨name, hasked⟩ := Option.isSome_iff_exists.1 hgiven
    have hintrospected : scope.introspection? root field.head = some (.ok
        (if scope.schema.hasType name then .node (.type (.named name)) else .null, .named "__Type")) := by
      have hnode : scope.namedNode field.head =
          .ok (if scope.schema.hasType name then .node (.type (.named name)) else .null) := by
        unfold typeAsked? at hasked
        split at hasked
        · next hvalue =>
          cases hasked
          rw [namedNode, hvalue]
        · cases hasked
      simp [introspection?, hisRoot, hname, hnode, Except.map]
    rw [if_neg htypename, if_neg htypename, if_neg hschemaName, hintrospected, hasked]
    cases hexists : scope.schema.hasType name with
    | true =>
      have hpart : (SchemaNode.type (.named name)).PartOf scope.schema := ⟨rfl, hexists⟩
      refine (hcomplete hasks rfl (Data.ofType_node (.type (.named name)) hpart)).bind
        fun result hresult => .pure ?_
      rw [hresult]
      simp [Option.filter, hexists, Data.shown]
    | false =>
      refine (hcomplete hasks rfl (@Data.ofType_null ω ε scope.schema "__Type")).bind fun result hresult => .pure ?_
      rw [hresult]
      simp [Option.filter, hexists, Data.shown]

end Scope

/-! ### Requests -/

namespace Service

variable {ω ε α : Type} {service : Service ω ε α} {document : Document} {runtime : Runtime ε α} {copy : Nat}
  {operation : Operation} {type : TypeDecl} {variableValues : List (String × Value)}

private theorem regular_of_request {schema : Schema} {source : List UInt8}
    (h : schema.request? source = .ok document) (hbare : document.Bare) : Scope.Regular document :=
  ⟨Schema.request?_placed h, Schema.request?_acyclic h, hbare⟩

/-- The selections of an operation are ready to be executed. -/
private theorem ready_operation {schema : Schema} {source : List UInt8} {scope : Scope ω ε α}
    (h : schema.request? source = .ok scope.document) (hbare : scope.document.Bare)
    (hoperation : scope.document.selections? (.operation operation.name) = some operation.selections) :
    scope.Ready scope.document.fragments (.operation operation.name) operation.selections := by
  obtain ⟨other, hother, hselections⟩ := Option.map_eq_some_iff.1 hoperation
  have hmem := Members.mem_of_get? hother
  refine ⟨scope.document.leaves_all, fun head hhead => (Schema.request?_placed h).head? hoperation hhead, ?_, ?_⟩
  · refine (Schema.request?_closed h).provides fun mention hmention => List.mem_append_left _ ?_
    exact List.mem_flatMap.2 ⟨other, hmem, hselections ▸ hmention⟩
  · exact hselections ▸ hbare.operations other hmem

/-- A request that asks the root of queries for nothing but introspection, with valid arguments, without directives and
under keys of their own, is answered without errors. The answer is the description of the schema as far as the depth
allows, and that is faithful to what is declared. The schema may be any that is loaded onto what is built in. -/
theorem execute_introspection {options : SchemaOptions}
    (hschema : Relation.ReflTransGen Schema.Loads (.initial options) service.schema) {source : List UInt8}
    (hrequest : service.schema.request? source = .ok document) (hbare : document.Bare)
    (hruntime : runtime.Holds service.schema document copy) {name : Option String} {supplied : List (String × Value)}
    (hprepare : service.prepare document name supplied = .ok (operation, type, variableValues))
    (hroot : service.schema.rootType? .query = some type) (hkind : operation.kind ≠ .subscription)
    (hasks : (service.scope document copy runtime.next operation variableValues).AsksRoot type document.fragments
      operation.selections) :
    let scope := service.scope document copy runtime.next operation variableValues
    let response := (service.execute document copy name supplied runtime).1
    response.errors = [] ∧
      response.data = .object (CollectedField.entries (scope.shownRoot type.name)
        (scope.collected type document.fragments operation.selections)) ∧
      scope.Faithful := by
  intro scope response
  obtain ⟨hoperation, -⟩ := prepare_spec hprepare
  have hsound := Schema.sound_of_loads hschema
  have hquery : (operation.kind == .subscription) = false := beq_eq_false_iff_ne.2 hkind
  have hdocument : Scope.Regular scope.document := regular_of_request hrequest hbare
  have hready : scope.Ready document.fragments (.operation operation.name) operation.selections :=
    @ready_operation ω ε α operation service.schema source scope hrequest hbare hoperation
  have hselect := (Scope.select_gives hdocument type (service.root operation.kind) service.maxDepth
    (scope.shownRoot type.name) document.fragments (.operation operation.name) operation.selections [] hready
    fun field hfield owner hinside _ => Scope.rootField_shows hdocument hsound hquery hroot hinside
      (hasks.fields field hfield) _) _ (start_tracks hruntime operation variableValues)
  have hperform : (service.perform document copy operation type variableValues runtime).1 =
      (CollectedField.entries (scope.shownRoot type.name)
        (scope.collected type document.fragments operation.selections), []) := by
    refine hselect.1.trans ?_
    rw [mergeEntries_of_nodup (by rw [List.nil_append, Scope.keys_entries]; exact hasks.keys), List.nil_append]
  have hresponse : response = { data := .object (CollectedField.entries (scope.shownRoot type.name)
      (scope.collected type document.fragments operation.selections)), errors := [] } := by
    show (service.execute document copy name supplied runtime).1 = _
    unfold execute
    rw [hprepare]
    dsimp only
    rw [run_query hquery, hperform]
  rw [hresponse]
  exact ⟨rfl, rfl, Scope.faithful (Schema.loaded_of_loads hschema) hsound⟩

/-- The schema with what is read from `type Query{best:String hits:[String!]}`. -/
private def withCharts (schema : Schema) : Option Schema :=
  (schema.read? "type Query{best:String hits:[String!]}".toUTF8.toList).toOption.bind fun declarations =>
    (schema.declare? declarations).toOption

/-- A service that has nothing but its schema. -/
private def charts : Service Empty Empty Unit where
  schema := (withCharts (.initial {})).getD {}
  root _ := .value (.object [])
  host :=
    { typeName := nofun, implementation? := nofun, resolve := nofun, items? := nofun, untyped := .plain,
      accepts := nofun, send := nofun, dismiss := nofun }

private def chartsType : FieldHead := { name := "__type", args := [("name", .string "Query")], pos := ⟨1, 2⟩ }

private def chartsName : FieldHead := { name := "name", pos := ⟨1, 23⟩ }

private def chartsFields : FieldHead := { name := "fields", args := [("includeDeprecated", .bool true)], pos := ⟨1, 28⟩ }

private def fieldName : FieldHead := { name := "name", pos := ⟨1, 59⟩ }

private def chartsSelections : List Selection :=
  [.field chartsName [], .field chartsFields [.field fieldName []]]

private def chartsText : String := "\x7b__type(name:\"Query\")\x7bname fields(includeDeprecated:true)\x7bname\x7d\x7d\x7d"

/-- What is read from `{__type(name:"Query"){name fields(includeDeprecated:true){name}}}`. -/
private def chartsRequest : Document where
  operations := [{ kind := .query, name := "", pos := ⟨1, 1⟩, selections := [.field chartsType chartsSelections] }]
  fragments := []

/-- The types of the arguments of a field. -/
private def argumentTypes? (schema : Schema) (type field : String) : Option (List (String × TypeRef)) :=
  ((schema.type? type).bind (·.field? field)).map fun decl => decl.args.map fun arg => (arg.name, arg.type)

/-- What the request is about is declared. -/
private def DeclaresCharts (schema : Schema) : Prop :=
  (schema.rootType? .query).isSome = true ∧
    schema.signature? "Query" = some [("best", .named "String"), ("hits", .list (.nonNull (.named "String")))] ∧
    argumentTypes? schema "__Type" "name" = some [] ∧ argumentTypes? schema "__Field" "name" = some [] ∧
    argumentTypes? schema "__Type" "fields" = some [("includeDeprecated", .named "Boolean")]

private instance (schema : Schema) : Decidable (DeclaresCharts schema) := by
  unfold DeclaresCharts
  infer_instance

set_option maxRecDepth 20000 in
private theorem charts_declares :
    Relation.ReflTransGen Schema.Loads (.initial {}) charts.schema ∧ DeclaresCharts charts.schema := by
  have hdeclares : (withCharts (.initial {})).any (fun schema => decide (DeclaresCharts schema)) = true := by
    refine Schema.initial_of_builtFrom
      (P := fun schema => (withCharts schema).any (fun schema => decide (DeclaresCharts schema)) = true) ?_
    unfold Builtin.source
    exact ⟨_, rfl, by decide +kernel⟩
  have hok {ε β : Type} {result : Except ε β} {b : β} (hresult : result.toOption = some b) : result = .ok b := by
    cases result <;> cases hresult
    rfl
  unfold charts
  dsimp only
  cases hcharts : withCharts (.initial {}) with
  | none => simp [hcharts] at hdeclares
  | some schema =>
    rw [hcharts] at hdeclares
    obtain ⟨declarations, hread, hdeclare⟩ := Option.bind_eq_some_iff.1 hcharts
    have hloads : Schema.Loads (.initial {}) schema :=
      ⟨declarations, fun d hd => ⟨_, declarations, hok hread, hd⟩, hok hdeclare⟩
    exact ⟨.single hloads, of_decide_eq_true hdeclares⟩

set_option maxRecDepth 2000 in
private theorem charts_request {schema : Schema} (hroot : (schema.rootType? .query).isSome = true) :
    schema.request? chartsText.toUTF8.toList = .ok chartsRequest := by
  have hbytes : chartsText.toUTF8.toList =
      [123, 95, 95, 116, 121, 112, 101, 40, 110, 97, 109, 101, 58, 34, 81, 117, 101, 114, 121, 34, 41, 123, 110, 97, 109,
        101, 32, 102, 105, 101, 108, 100, 115, 40, 105, 110, 99, 108, 117, 100, 101, 68, 101, 112, 114, 101, 99, 97,
        116, 101, 100, 58, 116, 114, 117, 101, 41, 123, 110, 97, 109, 101, 125, 125, 125] := by
    decide +kernel
  have hread : Document.read? schema chartsText.toUTF8.toList = .ok chartsRequest := by
    rw [hbytes]
    cbv
  have hfaults : chartsRequest.faults schema = [] := by
    simp [chartsRequest, chartsType, chartsSelections, chartsName, chartsFields, fieldName, Document.faults,
      Schema.operationFaults, Schema.requestUsesFaults, Schema.usesFaults, Schema.selectionsFaults,
      Schema.selectionFaults, hroot]
  have hnormal : chartsRequest.normal schema = chartsRequest := by cbv
  unfold Schema.request?
  rw [hread]
  simp [hfaults, hnormal]

section Charts

variable {scope : Scope Empty Empty Unit} {service : Service Empty Empty Unit} {type : TypeDecl}

private theorem collected_one {head : FieldHead} (h : head.directives = []) (children : List Selection)
    (type : TypeDecl) : scope.collected type [] [.field head children] = [{ head, children, left := [] }] := by
  simp [Scope.collected, Scope.omission?, Selection.directives, h]

private theorem fieldsOn_type (hschema : scope.schema.DescribesItself) :
    scope.fieldsOn "__Type" [] chartsSelections =
      [{ head := chartsName, children := [], left := [] },
        { head := chartsFields, children := [.field fieldName []], left := [] }] := by
  obtain ⟨type, -, htype, -⟩ := hschema.object (.type (.named "Query"))
  rw [Scope.fieldsOn, show scope.schema.type? "__Type" = some type from htype]
  simp [chartsSelections, chartsName, chartsFields, Scope.collected, Scope.omission?, Selection.directives]

private theorem fieldsOn_field (hschema : scope.schema.DescribesItself) :
    scope.fieldsOn "__Field" [] [.field fieldName []] = [{ head := fieldName, children := [], left := [] }] := by
  obtain ⟨type, -, htype, -⟩ := hschema.object (.field { name := "best", type := .named "String" })
  rw [Scope.fieldsOn, show scope.schema.type? "__Field" = some type from htype]
  exact collected_one rfl _ _

private theorem asks_nil (type : String) : scope.Asks type [] [] := by
  have hnone : scope.fieldsOn type [] [] = [] := by
    unfold Scope.fieldsOn
    split <;> simp [Scope.collected]
  exact .intro (by simp [hnone]) (by simp [hnone]) (by simp [hnone])

private theorem args_of_argumentTypes? {type field : String} {decl : FieldDef} {types : List (String × TypeRef)}
    (h : argumentTypes? scope.schema type field = some types) (hdecl : scope.declOn? type field = some decl) :
    decl.args.map (fun arg => (arg.name, arg.type)) = types := by
  unfold argumentTypes? at h
  rw [show (scope.schema.type? type).bind (·.field? field) = some decl from hdecl] at h
  exact Option.some.inj h

private theorem valid_of_none {type field : String} {decl : FieldDef} {head : FieldHead}
    (h : argumentTypes? scope.schema type field = some []) (hdecl : scope.declOn? type field = some decl)
    (hargs : head.args = []) : scope.ValidArguments decl head := by
  have hnone : decl.args = [] := List.map_eq_nil_iff.1 (args_of_argumentTypes? h hdecl)
  constructor <;> simp [hnone, hargs, Entries.keys]

/-- All fields are asked for. -/
private theorem fields_arguments (hschema : scope.schema.DescribesItself)
    (h : argumentTypes? scope.schema "__Type" "fields" = some [("includeDeprecated", .named "Boolean")])
    {decl : FieldDef} (hdecl : scope.declOn? "__Type" "fields" = some decl) :
    scope.ValidArguments decl chartsFields ∧
      scope.argumentsOn "__Type" chartsFields = [("includeDeprecated", .bool true)] := by
  obtain ⟨boolean, hboolean, hbody⟩ := hschema.scalars ("Boolean", .boolean) (by simp [Introspection.scalars])
  obtain ⟨arg, hargs, harg⟩ := List.map_eq_singleton_iff.1 (args_of_argumentTypes? h hdecl)
  obtain ⟨hname, htype⟩ := Prod.mk.inj harg
  have hvalue : scope.coercion.coerceIn arg.type (.bool true) = .ok (.bool true) := by
    simp [htype, Coercion.coerceIn, Coercion.coerceAs, Coercion.coerceNamed, Scope.coercion, hboolean, hbody,
      ScalarKind.coerceIn]
  have hgiven : scope.given? (Entries.get? arg.name chartsFields.args) = some (.bool true) := by
    simp [hname, chartsFields, Entries.get?, Scope.given?]
  constructor
  · constructor
    · simp [hargs, chartsFields, Entries.keys, Members.contains, hname, HasName.name]
    · rw [hargs, List.forall_mem_singleton]
      intro v hv
      cases hgiven.symm.trans hv
      exact ⟨_, hvalue⟩
    · rw [hargs, List.forall_mem_singleton]
      intro hnone
      cases hgiven.symm.trans hnone
  · have hmember : Members.get? arg.name decl.args = some arg := by simp [hargs, Members.get?, HasName.name]
    have hargument : scope.argument? arg (Entries.get? arg.name chartsFields.args) = .ok (some (.bool true)) := by
      unfold Scope.argument?
      rw [hgiven]
      simp [hvalue]
    have horder : (ArgumentPlan.of decl chartsFields.args).order =
        [(arg.name, Entries.get? arg.name chartsFields.args)] := by
      rw [ArgumentPlan.of, hargs]
      rfl
    rw [Scope.argumentsOn, show scope.declOn? "__Type" chartsFields.name = some decl from hdecl]
    dsimp only
    rw [horder]
    simp only [Scope.arguments, hmember, hargument, ← hname]
    rfl

private theorem charts_asks (hschema : scope.schema.DescribesItself) (hdeclares : DeclaresCharts scope.schema) :
    scope.Asks "__Type" [] chartsSelections := by
  obtain ⟨-, -, hname, hfieldName, hfields⟩ := hdeclares
  have hfield : scope.Asks "__Field" [] [.field fieldName []] := by
    constructor <;> rw [fieldsOn_field hschema]
    · decide
    · exact List.forall_mem_singleton.2 (.inr ⟨rfl, fun decl hdecl => valid_of_none hfieldName hdecl rfl⟩)
    · exact List.forall_mem_singleton.2 fun ref href => asks_nil _
  constructor <;> rw [fieldsOn_type hschema]
  · decide
  · rw [List.forall_mem_cons, List.forall_mem_singleton]
    exact ⟨.inr ⟨rfl, fun decl hdecl => valid_of_none hname hdecl rfl⟩,
      .inr ⟨rfl, fun decl hdecl => (fields_arguments hschema hfields hdecl).1⟩⟩
  · rw [List.forall_mem_cons, List.forall_mem_singleton]
    refine ⟨fun ref href => asks_nil _, fun ref href => ?_⟩
    rw [← Option.some.inj href]
    exact hfield

private theorem typeAsked?_charts (hschema : scope.schema.DescribesItself) :
    scope.typeAsked? chartsType = some "Query" := by
  obtain ⟨decl, hdecl, hbody⟩ := hschema.scalars ("String", .string) (by simp [Introspection.scalars])
  simp [Scope.typeAsked?, chartsType, Entries.get?, Coercion.coerceIn, Coercion.coerceAs, Coercion.coerceNamed,
    Scope.coercion, hdecl, hbody, ScalarKind.coerceIn]

private theorem query_of_declares {schema : Schema} (h : DeclaresCharts schema) :
    ∃ query body, schema.type? "Query" = some query ∧ query.body = .object body ∧
      body.fields.map FieldDef.name = ["best", "hits"] := by
  have hquery := h.2.1
  unfold Schema.signature? at hquery
  split at hquery
  · next body hobject =>
    obtain ⟨query, hfound, hbody⟩ := Option.map_eq_some_iff.1 hobject
    have hnames := congrArg (List.map Prod.fst) (Option.some.inj hquery)
    rw [List.map_map] at hnames
    exact ⟨query, body, hfound, hbody, hnames⟩
  · cases hquery

private theorem fieldsArgumentsOn (hschema : scope.schema.DescribesItself) (hdeclares : DeclaresCharts scope.schema) :
    scope.argumentsOn "__Type" chartsFields = [("includeDeprecated", .bool true)] := by
  obtain ⟨type, -, htype, -, hall⟩ := hschema.object (.type (.named "Query"))
  obtain ⟨decl, hdecl, -⟩ := hall "fields" _ rfl
  refine (fields_arguments hschema hdeclares.2.2.2.2 (?_ : scope.declOn? "__Type" "fields" = some decl)).2
  rw [Scope.declOn?, show scope.schema.type? "__Type" = some type from htype]
  exact hdecl

/-- The type is shown by its name and the names of its fields. -/
private theorem shown_charts (hschema : scope.schema.DescribesItself) (hdeclares : DeclaresCharts scope.schema)
    (depth : Nat) :
    scope.schema.hasType "Query" = true ∧
      scope.shown (depth + 2) [] chartsSelections (.type (.named "Query")) =
        .object [("name", .string "Query"),
          ("fields", .list [.object [("name", .string "best")], .object [("name", .string "hits")]])] := by
  obtain ⟨query, body, hfound, hbody, hnames⟩ := query_of_declares hdeclares
  have hname : query.name = "Query" := Members.name_of_get? hfound
  have hresolve (name : String) (args : Arguments) :
      ((SchemaNode.type (.named "Query")).resolve scope.schema name args : Except ExecutionFault (Data Empty Empty)) =
        SchemaNode.resolveDecl scope.schema query name args := by
    simp only [SchemaNode.resolve, SchemaNode.resolveType]
    rw [show scope.schema.named? (.named "Query") = some query from hfound]
  have hnameShown (below : SchemaNode → Value) :
      scope.shownField below (.type (.named "Query")) chartsName = .string "Query" := by
    rw [Scope.shownField, if_neg (by decide), hresolve, ← hname]
    rfl
  have hfieldsShown (below : SchemaNode → Value) :
      scope.shownField below (.type (.named "Query")) chartsFields =
        .list (body.fields.map fun field => below (.field field)) := by
    have hfields : query.fields? = some body.fields := by rw [TypeDecl.fields?, hbody]
    rw [Scope.shownField, if_neg (by decide), hresolve, show (SchemaNode.type (.named "Query")).typeName = "__Type" from rfl,
      fieldsArgumentsOn hschema hdeclares]
    simp only [chartsFields, SchemaNode.resolveDecl, hfields]
    rw [SchemaNode.listed_all rfl, Data.nodes, Data.shown, Data.shownItems_eq_map, List.map_map]
    rfl
  have hfield (field : FieldDef) :
      scope.shown (depth + 1) [] [.field fieldName []] (.field field) = .object [("name", .string field.name)] := by
    rw [Scope.shown, show (SchemaNode.field field).typeName = "__Field" from rfl, fieldsOn_field hschema]
    rfl
  have hlist : (body.fields.map fun field => scope.shown (depth + 1) [] [.field fieldName []] (.field field)) =
      ["best", "hits"].map fun name => .object [("name", .string name)] := by
    rw [← hnames, List.map_map]
    exact List.map_congr_left fun field _ => hfield field
  refine ⟨Members.contains_iff.2 (List.mem_map.2 ⟨query, Members.mem_of_get? hfound, hname⟩), ?_⟩
  rw [Scope.shown, show (SchemaNode.type (.named "Query")).typeName = "__Type" from rfl, fieldsOn_type hschema]
  simp only [CollectedField.entries, List.map_cons, List.map_nil, hnameShown, hfieldsShown, hlist]
  rfl

private theorem prepare_charts (htype : service.schema.rootType? .query = some type) :
    service.prepare chartsRequest none [] = .ok (chartsRequest.operations[0], type, []) := by
  unfold prepare
  rw [show chartsRequest.operation? none = .ok chartsRequest.operations[0] from rfl]
  dsimp only
  rw [show VariableDef.values service.schema [] chartsRequest.operations[0].variableDefs = ([], []) from rfl]
  dsimp only
  rw [show chartsRequest.operations[0].kind = .query from rfl, htype]

private theorem asksRoot_charts (hschema : service.schema.DescribesItself) (hdeclares : DeclaresCharts service.schema)
    (type : TypeDecl) :
    let scope := service.scope chartsRequest 0 1 chartsRequest.operations[0] []
    scope.AsksRoot type [] [.field chartsType chartsSelections] := by
  intro scope
  have hasked := Option.isSome_of_mem (@typeAsked?_charts scope hschema)
  constructor <;> rw [collected_one rfl]
  · decide
  · exact List.forall_mem_singleton.2 (.inr (.inr ⟨rfl, hasked, charts_asks hschema hdeclares⟩))

private theorem shownRoot_charts (hschema : service.schema.DescribesItself) (hdeclares : DeclaresCharts service.schema)
    (hdepth : service.maxDepth = 100) (type : TypeDecl) :
    let scope := service.scope chartsRequest 0 1 chartsRequest.operations[0] []
    CollectedField.entries (scope.shownRoot type.name) (scope.collected type [] [.field chartsType chartsSelections]) =
      [("__type", .object [("name", .string "Query"),
        ("fields", .list [.object [("name", .string "best")], .object [("name", .string "hits")]])])] := by
  intro scope
  obtain ⟨hquery, hshown⟩ := @shown_charts scope hschema hdeclares 98
  have hroot : scope.shownRoot type.name { head := chartsType, children := chartsSelections, left := [] } =
      scope.shown 100 [] chartsSelections (.type (.named "Query")) := by
    rw [Scope.shownRoot, if_neg (by decide), if_neg (by decide), @typeAsked?_charts scope hschema,
      show scope.service.maxDepth = 100 from hdepth]
    simp [Option.filter, hquery]
  rw [collected_one rfl, CollectedField.entries, List.map_singleton, hroot, hshown]
  rfl

end Charts

theorem charts_described :
    let response := (charts.execute chartsRequest 0 none [] { next := 1, app := () }).1
    response.errors = [] ∧
      response.data = .object [("__type", .object [("name", .string "Query"),
        ("fields", .list [.object [("name", .string "best")], .object [("name", .string "hits")]])])] ∧
      (charts.scope chartsRequest 0 1 chartsRequest.operations[0] []).Faithful := by
  obtain ⟨hloads, hdeclares⟩ := charts_declares
  obtain ⟨type, htype⟩ := Option.isSome_iff_exists.1 hdeclares.1
  have hschema := Schema.describesItself_of_loads hloads
  have hbare : chartsRequest.Bare := by
    refine ⟨List.forall_mem_singleton.2 ?_, nofun⟩
    simp [chartsSelections, chartsType, chartsName, chartsFields, fieldName, Selection.AllBare, Selection.Bare]
  obtain ⟨herrors, hdata, hfaithful⟩ := execute_introspection hloads (charts_request hdeclares.1) hbare
    ((Runtime.numbered_start ()).holds _ _) (prepare_charts htype) htype (by decide)
    (asksRoot_charts hschema hdeclares type)
  exact ⟨herrors, hdata.trans (congrArg Value.object (shownRoot_charts hschema hdeclares rfl type)), hfaithful⟩

end Service

end GraphQL
