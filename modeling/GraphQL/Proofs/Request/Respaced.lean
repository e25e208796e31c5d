import GraphQL.Proofs.Schema.Respaced
import GraphQL.Request.Reader

/-!
# Requests in step

Two requests that differ in their layout only are read alike: the same operations and fragments come out of them, save
for their positions (`Parser.readDefinitions_inStep`), and they are put together to the same document.
-/

namespace GraphQL

/-! ### Requests without positions -/

/-- The field without positions. -/
def FieldHead.unplaced (head : FieldHead) : FieldHead :=
  { head with directives := head.directives.map DirectiveUse.unplaced, pos := .start }

namespace Selection

mutual

/-- The selection without positions. -/
def unplaced : Selection → Selection
  | field head children => field head.unplaced (unplacedOf children)
  | inline condition directives _ children =>
    inline condition (directives.map DirectiveUse.unplaced) .start (unplacedOf children)
  | spread fragment directives _ => spread fragment (directives.map DirectiveUse.unplaced) .start

/-- The selections without positions. -/
def unplacedOf : List Selection → List Selection
  | [] => []
  | selection :: rest => unplaced selection :: unplacedOf rest

end

end Selection

/-- The variable without positions. -/
def VariableDef.unplaced (decl : VariableDef) : VariableDef :=
  { decl with
    type := decl.type.unplaced, directives := decl.directives.map DirectiveUse.unplaced, pos := .start }

/-- The operation without positions. -/
def Operation.unplaced (op : Operation) : Operation :=
  { op with
    variableDefs := op.variableDefs.map VariableDef.unplaced
    directives := op.directives.map DirectiveUse.unplaced
    selections := Selection.unplacedOf op.selections
    pos := .start }

/-- The fragment without positions. -/
def Fragment.unplaced (frag : Fragment) : Fragment :=
  { frag with
    directives := frag.directives.map DirectiveUse.unplaced
    selections := Selection.unplacedOf frag.selections
    pos := .start }

/-- The definition without positions. -/
def Definition.unplaced : Definition → Definition
  | operation op => operation op.unplaced
  | fragment frag => fragment frag.unplaced

/-- The document without positions. -/
def Document.unplaced (document : Document) : Document where
  operations := document.operations.map Operation.unplaced
  fragments := document.fragments.map Fragment.unplaced

namespace Parser

variable {room : Room}

/-! ### Selections -/

private theorem unplaced_withDefaults (schema : Schema) (use : DirectiveUse) :
    (withDefaults schema use).unplaced = withDefaults schema use.unplaced := by
  unfold withDefaults
  rw [show use.unplaced.name = use.name from rfl]
  split <;> rfl

private theorem readRequestUses_inStep (schema : Schema) :
    InStepUpTo false room (List.map DirectiveUse.unplaced) (readRequestUses schema) (readRequestUses schema) := by
  refine readUses_inStep.bind fun uses uses' huses => .pure ?_ fun _ _ => id
  have hmap (uses : List DirectiveUse) : (uses.map (withDefaults schema)).map DirectiveUse.unplaced =
      (uses.map DirectiveUse.unplaced).map (withDefaults schema) := by
    simp [Function.comp_def, unplaced_withDefaults]
  rw [hmap, hmap, huses]

private theorem readFieldHead_inStep (schema : Schema) (first : String) (pos pos' : Pos) :
    InStepUpTo false room FieldHead.unplaced (readFieldHead schema first pos) (readFieldHead schema first pos') := by
  have hrest (room : Room) (names : Option String × String) : InStepUpTo false room FieldHead.unplaced
      (do
        let args ← readOptionalArguments
        let directives ← readRequestUses schema
        return { aliasName := names.1, name := names.2, args, directives, pos : FieldHead })
      (do
        let args ← readOptionalArguments
        let directives ← readRequestUses schema
        return { aliasName := names.1, name := names.2, args, directives, pos := pos' : FieldHead }) := by
    refine readOptionalArguments_inStep.bindSame fun args => ?_
    refine (readRequestUses_inStep schema).bind fun uses uses' huses => .pure ?_ fun _ _ => id
    simp only [FieldHead.unplaced, huses]
  refine (consume_inStep (by decide)).bindSame fun aliased => .ite Iff.rfl (fun _ => ?_) fun _ => hrest _ (none, first)
  exact (readName_inStep _).weak.bindSame fun name => hrest _ (some first, name)

section Selections

variable {schema : Schema} {set set' : Parser (List Selection)}
  (hset : InStepUpTo true room Selection.unplacedOf set set')

include hset

private theorem readInline_inStep (condition : Option String) (pos pos' : Pos) :
    InStepUpTo true room Selection.unplaced (readInline schema set condition pos)
      (readInline schema set' condition pos') := by
  refine (readRequestUses_inStep schema).bind fun uses uses' huses => ?_
  refine hset.step fun children children' hchildren => .pure ?_ fun _ _ => id
  simp only [Selection.unplaced, huses, hchildren]

private theorem readSpread_inStep (pos pos' : Pos) :
    InStepUpTo true room Selection.unplaced (readSpread schema set pos) (readSpread schema set' pos') := by
  refine skip fun b => ((peekKeyword_inStep (by cbv)).starting fun _ _ h => h.respaced).bindSame fun found => ?_
  refine .ite Iff.rfl (fun _ => ?_) fun _ => .ite Iff.rfl (fun _ => ?_) fun _ => ?_
  · refine readToken_inStep.discard.bind fun _ _ _ => (readName_inStep _).stepSame fun condition => ?_
    exact (readInline_inStep (hset.within room.less_le) (some condition) pos pos').weak
  · exact readInline_inStep hset none pos pos'
  · refine (readName_inStep _).stepSame fun name => ?_
    refine (readRequestUses_inStep schema).bind fun uses uses' huses => .pure ?_ fun _ _ => id
    simp only [Selection.unplaced, huses]

private theorem readSelection_inStep :
    InStepUpTo true room Selection.unplaced (readSelection schema set) (readSelection schema set') := by
  refine position_bind fun pos pos' => consumeSpread_inStep.bindSame fun spread => ?_
  cases spread with
  | true => exact readSpread_inStep hset pos pos'
  | false =>
    simp only [Bool.false_eq_true, if_false]
    refine .exists_before fun b => peek_facing.bindSame fun c => ?_
    refine readToken_bind (fun _ _ h => h.respaced) (.ite Iff.rfl (fun _ => .fail_bind nofun) fun h => absurd rfl h)
      fun first => .ite Iff.rfl (fun _ => .fail_bind nofun) fun _ => ?_
    refine (readFieldHead_inStep schema first pos pos').bind fun head head' hhead => skip fun b => ?_
    refine .ite Iff.rfl (fun _ => ?_) fun _ => .pure ?_ fun _ _ h => h.respaced
    · have hset := (hset.within room.less_le).weak.starting fun _ _ (h : Facing b _ _) => h.respaced
      refine hset.bind fun children children' hchildren => ?_
      refine .pure ?_ fun _ _ => id
      simp only [Selection.unplaced, hhead, hchildren]
    · simp only [Selection.unplaced, hhead]

end Selections

private theorem readSelections_inStep {selection selection' : Parser Selection}
    (hselection : InStepUpTo true room Selection.unplaced selection selection') (start start' : Pos) :
    InStepUpTo false room Selection.unplacedOf (readSelections selection start) (readSelections selection' start') := by
  refine .fix fun room' hroom more more' hmore => skip fun b => ?_
  refine .ite Iff.rfl (fun h => ?_) fun _ => .ite Iff.rfl (fun _ => .failAt nofun) fun _ => ?_
  · exact (readMark (by decide) h).step fun _ _ _ => .pure rfl fun _ _ => id
  · refine ((hselection.within hroom).starting fun _ _ h => h.respaced).step fun first first' hfirst => ?_
    refine hmore.bind fun rest rest' hrest => .pure ?_ fun _ _ => id
    simp only [Selection.unplacedOf, hfirst, hrest]

private theorem readSelectionSet_inStep (schema : Schema) :
    InStepUpTo true room Selection.unplacedOf (readSelectionSet schema) (readSelectionSet schema) := by
  refine .fix fun room' _ set set' hset => position_bind fun start start' => ?_
  refine (expect_inStep (by decide)).step fun _ _ _ => ?_
  refine (readSelections_inStep (readSelection_inStep hset) start start').bind fun selections selections' h => ?_
  have hempty : selections.isEmpty ↔ selections'.isEmpty := by
    cases selections <;> cases selections' <;> simp [Selection.unplacedOf] at h ⊢
  exact .ite hempty (fun _ => .failAt nofun) fun _ => .pure h fun _ _ => id

/-! ### Definitions -/

private theorem readVariable_inStep (schema : Schema) :
    InStepUpTo true room VariableDef.unplaced (readVariable schema) (readVariable schema) := by
  refine position_bind fun pos pos' => (expect_inStep (by decide)).step fun _ _ _ => ?_
  refine (readName_inStep _).weak.bindSame fun name => (expect_inStep (by decide)).weak.bind fun _ _ _ => ?_
  refine (readTypeRef_inStep schema).weak.bind fun type type' htype => readDefault_inStep.bindSame fun v => ?_
  refine (readRequestUses_inStep schema).bind fun uses uses' huses => .pure ?_ fun _ _ => id
  simp only [VariableDef.unplaced, htype, huses]

private theorem readVariables_inStep (schema : Schema) (start start' : Pos) :
    InStepUpTo false room (List.map VariableDef.unplaced) (readVariables schema start [])
      (readVariables schema start' []) := by
  refine .fixWith (fun read read' => read.map VariableDef.unplaced = read'.map VariableDef.unplaced)
    (fun room' hroom more more' hmore read read' hread => ?_) rfl
  refine skip fun b => .ite Iff.rfl (fun h => ?_) fun _ => .ite Iff.rfl (fun _ => .failAt nofun) fun _ => ?_
  · exact (readMark (by decide) h).step fun _ _ _ => .pure hread fun _ _ => id
  · refine ((readVariable_inStep schema).starting fun _ _ h => h.respaced).step fun decl decl' hdecl => ?_
    exact addMember_inStep VariableDef.unplaced (fun _ => rfl) hdecl hread nofun hmore

private theorem readOptionalVariables_inStep (schema : Schema) :
    InStepUpTo false room (List.map VariableDef.unplaced) (readOptionalVariables schema)
      (readOptionalVariables schema) := by
  refine skip fun b => .ite Iff.rfl (fun h => ?_) fun _ => .pure rfl fun _ _ h => h.respaced
  refine position_bind fun start start' => (readMark (by decide) h).step fun _ _ _ => ?_
  exact readVariables_inStep schema start start'

/-- The definitions that were read before are the same but for positions. -/
private abbrev SameDefinitions (read read' : List Definition) : Prop :=
  read.map Definition.unplaced = read'.map Definition.unplaced

private theorem operations_unplaced (definitions : List Definition) :
    (definitions.map Definition.unplaced).filterMap Definition.operation? =
      (definitions.filterMap Definition.operation?).map Operation.unplaced := by
  rw [List.filterMap_map, List.map_filterMap]
  refine List.filterMap_congr fun definition _ => ?_
  cases definition <;> rfl

private theorem fragments_unplaced (definitions : List Definition) :
    (definitions.map Definition.unplaced).filterMap Definition.fragment? =
      (definitions.filterMap Definition.fragment?).map Fragment.unplaced := by
  rw [List.filterMap_map, List.map_filterMap]
  refine List.filterMap_congr fun definition _ => ?_
  cases definition <;> rfl

section Definitions

variable (schema : Schema) {read read' : List Definition} (hread : SameDefinitions read read')

include hread

private theorem checkOperationName_inStep (name : String) (pos pos' : Pos) :
    InStepExactly false room (checkOperationName read name pos) (checkOperationName read' name pos') := by
  have hoperations : (read.filterMap Definition.operation?).map Operation.unplaced =
      (read'.filterMap Definition.operation?).map Operation.unplaced := by
    rw [← operations_unplaced, ← operations_unplaced, hread]
  unfold checkOperationName
  rw [contains_congr Operation.unplaced (fun _ => rfl) name hoperations]
  refine .ite Iff.rfl (fun _ => .failAt ?_) fun _ => .pure rfl fun _ _ => id
  split <;> nofun

private theorem readShortQuery_inStep (pos pos' : Pos) :
    InStepUpTo true room Definition.unplaced (readShortQuery schema read pos) (readShortQuery schema read' pos') := by
  refine (checkOperationName_inStep hread "" pos pos').bindSame fun _ => ?_
  refine (readSelectionSet_inStep schema).step fun selections selections' h => .pure ?_ fun _ _ => id
  simp only [Definition.unplaced, Operation.unplaced, h]

private theorem readOperation_inStep (kind : OperationKind) (pos pos' : Pos) :
    InStepUpTo true room Definition.unplaced (readOperation schema read kind pos)
      (readOperation schema read' kind pos') := by
  refine discard_skipSpace_inStep.bind fun _ _ _ => readToken_inStep.bindSame fun name => ?_
  refine (readOptionalVariables_inStep schema).bind fun decls decls' hdecls => ?_
  refine (readRequestUses_inStep schema).bind fun uses uses' huses => ?_
  refine (checkOperationName_inStep hread name pos pos').bindSame fun _ => ?_
  refine (readSelectionSet_inStep schema).step fun selections selections' h => .pure ?_ fun _ _ => id
  simp only [Definition.unplaced, Operation.unplaced, hdecls, huses, h]

private theorem readFragment_inStep (pos pos' : Pos) :
    InStepUpTo true room Definition.unplaced (readFragment schema read pos) (readFragment schema read' pos') := by
  have hfragments : (read.filterMap Definition.fragment?).map Fragment.unplaced =
      (read'.filterMap Definition.fragment?).map Fragment.unplaced := by
    rw [← fragments_unplaced, ← fragments_unplaced, hread]
  refine (readName_inStep _).stepSame fun name => .ite Iff.rfl (fun _ => .failAt_bind (by simp)) fun _ => ?_
  refine (peekKeyword_inStep (by cbv)).bindSame fun found => .ite Iff.rfl (fun _ => ?_) fun _ => ?_
  · exact skip fun _ => .fail_bind (by simp)
  refine readToken_inStep.discard.bind fun _ _ _ => (readName_inStep _).weak.bindSame fun condition => ?_
  refine (readRequestUses_inStep schema).bind fun uses uses' huses => ?_
  refine (readSelectionSet_inStep schema).weak.bind fun selections selections' h => ?_
  rw [contains_congr Fragment.unplaced (fun _ => rfl) name hfragments]
  refine .ite Iff.rfl (fun _ => .failAt_bind (by simp)) fun _ => .pure ?_ fun _ _ => id
  simp only [Definition.unplaced, Fragment.unplaced, huses, h]

theorem readDefinition_inStep (b : UInt8) :
    InStep true room (Facing b) (readDefinition schema read b) (readDefinition schema read' b)
      (fun d d' => d.unplaced = d'.unplaced) fun _ => Respaced := by
  refine position_bind fun pos pos' => .ite Iff.rfl (fun _ => ?_) fun _ => ?_
  · exact (readShortQuery_inStep schema hread pos pos').starting fun _ _ h => h.respaced
  have hunknown {strict : Bool} {room : Room} {before : Ahead} (keyword : String) :
      InStep strict room before
        (if keyword.isEmpty then fail (.expected "operation or fragment" b)
          else failAt pos (.unknownDefinition keyword) : Parser Definition)
        (if keyword.isEmpty then fail (.expected "operation or fragment" b)
          else failAt pos' (.unknownDefinition keyword) : Parser Definition)
        (fun d d' => d.unplaced = d'.unplaced) fun _ => Respaced :=
    .ite Iff.rfl (fun _ => .fail nofun) fun _ => .failAt nofun
  refine readToken_bind (fun _ _ h => h.respaced) ?_ fun keyword => ?_
  · have hfragment : ¬"" = "fragment" := by decide
    rw [if_neg hfragment, if_neg hfragment, show OperationKind.ofText? "" = none by decide]
    exact hunknown ""
  · refine .ite Iff.rfl (fun _ => (readFragment_inStep schema hread pos pos').weak) fun _ => ?_
    cases OperationKind.ofText? keyword with
    | none => exact hunknown keyword
    | some kind => exact (readOperation_inStep schema hread kind pos pos').weak

end Definitions

/-- Requests that differ in their layout only define the same. -/
theorem readDefinitions_inStep (schema : Schema) :
    InStep false room Respaced (readDefinitions schema []) (readDefinitions schema [])
      (fun ds ds' => ds.map Definition.unplaced = ds'.map Definition.unplaced) fun _ => Facing 0 := by
  refine .fixWith SameDefinitions (fun room' _ more more' hmore read read' hread => ?_) rfl
  refine skip fun b => .ite Iff.rfl (fun h => ?_) fun _ => ?_
  · rw [eq_of_beq h]
    exact .pure hread fun _ _ => id
  · refine (readDefinition_inStep schema hread b).step fun definition definition' h => hmore _ _ ?_
    unfold SameDefinitions
    rw [List.map_append, List.map_append, hread, List.map_singleton, List.map_singleton, h]

end Parser

/-! ### Documents -/

namespace Selection

mutual

private theorem spreads_unplaced (selection : Selection) :
    spreads selection.unplaced = (spreads selection).map fun mention => (mention.1, .start) := by
  cases selection with
  | field head children => simp only [unplaced, spreads, spreadsOf_unplaced children]
  | inline condition directives pos children => simp only [unplaced, spreads, spreadsOf_unplaced children]
  | spread fragment directives pos => rfl

private theorem spreadsOf_unplaced (selections : List Selection) :
    spreadsOf (unplacedOf selections) = (spreadsOf selections).map fun mention => (mention.1, .start) := by
  cases selections with
  | nil => rfl
  | cons selection rest =>
    simp only [unplacedOf, spreadsOf, List.map_append, spreads_unplaced selection, spreadsOf_unplaced rest]

end

end Selection

private theorem Definition.mentions_unplaced (definition : Definition) :
    definition.unplaced.mentions = definition.mentions.map fun mention => (mention.1, .start) := by
  cases definition with
  | operation op => exact Selection.spreadsOf_unplaced op.selections
  | fragment frag =>
    simp only [unplaced, mentions, Fragment.unplaced, Selection.spreadsOf_unplaced, List.map_append, List.map_singleton]

private theorem Definition.fragmentNames_unplaced (definitions : List Definition) :
    fragmentNames (definitions.map unplaced) = (fragmentNames definitions).map fun mention => (mention.1, .start) := by
  have hcontains (name : String) (names : List (String × Pos)) :
      Entries.contains name (names.map fun mention => (mention.1, Pos.start)) = Entries.contains name names := by
    unfold Entries.contains
    rw [Entries.get?_map (f := fun _ _ => Pos.start), Option.isSome_map]
  have hfold (mentions names : List (String × Pos)) :
      (mentions.map fun mention => (mention.1, Pos.start)).foldl
          (fun names mention => if Entries.contains mention.1 names then names else names ++ [mention])
          (names.map fun mention => (mention.1, Pos.start)) =
        (mentions.foldl (fun names mention => if Entries.contains mention.1 names then names else names ++ [mention])
          names).map fun mention => (mention.1, Pos.start) := by
    induction mentions generalizing names with
    | nil => rfl
    | cons mention rest ih =>
      simp only [List.map_cons, List.foldl_cons, hcontains]
      rw [← ih]
      split <;> simp
  have hmentions : (definitions.map unplaced).flatMap mentions =
      (definitions.flatMap mentions).map fun mention => (mention.1, Pos.start) := by
    rw [List.flatMap_map, List.map_flatMap]
    exact List.flatMap_congr fun definition _ => mentions_unplaced definition
  unfold fragmentNames
  rw [hmentions]
  exact hfold _ []

/-- A result without positions, and a failure without its place. -/
def unplacedResult {α β : Type} (f : α → β) (result : Except SyntaxError α) : Except SyntaxCause β :=
  (result.map f).mapError Located.cause

private theorem unplacedResult_bind {α α' β β' γ δ : Type} {h : α → γ} {l : α' → γ} {k : β → δ} {m : β' → δ}
    {x : Except SyntaxError α} {y : Except SyntaxError α'} {f : α → Except SyntaxError β}
    {g : α' → Except SyntaxError β'} (hxy : unplacedResult h x = unplacedResult l y)
    (hfg : ∀ a a', h a = l a' → unplacedResult k (f a) = unplacedResult m (g a')) :
    unplacedResult k (x >>= f) = unplacedResult m (y >>= g) := by
  cases x with
  | error e =>
    cases y with
    | error e' => exact congrArg Except.error (Except.error.inj hxy)
    | ok a' => cases hxy
  | ok a =>
    cases y with
    | error e' => cases hxy
    | ok a' => exact hfg a a' (Except.ok.inj hxy)

namespace Document

private theorem mapM_unplaced (fragments : List Fragment) (mentions : List (String × Pos)) :
    unplacedResult (List.map Fragment.unplaced)
        (mentions.mapM fun (name, pos) =>
          match Members.get? name fragments with
          | some frag => pure frag
          | none => throw ⟨.undefinedFragment name, pos⟩) =
      unplacedResult id
        ((mentions.map fun mention => (mention.1, Pos.start)).mapM fun (name, pos) =>
          match Members.get? name (fragments.map Fragment.unplaced) with
          | some frag => pure frag
          | none => throw ⟨.undefinedFragment name, pos⟩) := by
  induction mentions with
  | nil => rfl
  | cons mention rest ih =>
    rw [List.map_cons, List.mapM_cons, List.mapM_cons]
    refine unplacedResult_bind (h := Fragment.unplaced) (l := id) ?_ fun frag frag' hfrag => ?_
    · dsimp only
      rw [Members.get?_map (f := Fragment.unplaced) fun _ => rfl]
      cases Members.get? mention.1 fragments <;> rfl
    · refine unplacedResult_bind ih fun frags frags' hfrags => ?_
      exact congrArg Except.ok (congrArg₂ List.cons hfrag hfrags)

/-- The same document is made of definitions that are the same but for positions. -/
theorem ofDefinitions_unplaced (definitions : List Definition) :
    unplacedResult Document.unplaced (ofDefinitions definitions) =
      unplacedResult id (ofDefinitions (definitions.map Definition.unplaced)) := by
  have hrest := unplacedResult_bind (k := Document.unplaced) (m := id)
    (f := fun fragments => pure { operations := definitions.filterMap Definition.operation?, fragments })
    (g := fun fragments =>
      pure { operations := (definitions.filterMap Definition.operation?).map Operation.unplaced, fragments })
    (mapM_unplaced (definitions.filterMap Definition.fragment?) (Definition.fragmentNames definitions))
    fun fragments fragments' hfragments => by
      rw [show fragments' = fragments.map Fragment.unplaced from hfragments.symm]
      rfl
  unfold ofDefinitions
  simp only [Parser.operations_unplaced, Parser.fragments_unplaced, Definition.fragmentNames_unplaced]
  rw [Members.get?_map (f := Operation.unplaced) fun _ => rfl]
  cases Members.get? "" (definitions.filterMap Definition.operation?) with
  | none => exact hrest
  | some op =>
    simp only [Option.map_some, List.length_map]
    by_cases hcount : 1 < (definitions.filterMap Definition.operation?).length
    · rw [if_pos hcount, if_pos hcount]
      rfl
    · rw [if_neg hcount, if_neg hcount]
      exact hrest

end Document

end GraphQL
