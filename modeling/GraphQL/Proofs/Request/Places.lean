import GraphQL.Proofs.Request.Fragments
import GraphQL.Proofs.Schema.Reader
import Mathlib.Data.List.Nodup

/-!
# The places of fields

Every field of a request remembers where it stands. In a request that was read, no two fields stand at the same place:
within a definition a place tells which field is meant (`Schema.request?_placed`), and so it does within the whole
request (`Schema.request?_located`).
-/

namespace GraphQL

namespace Selection

mutual

/-- The fields in a selection at any depth, save those in fragments that it spreads. -/
def heads : Selection → List FieldHead
  | field head children => head :: headsOf children
  | inline _ _ _ children => headsOf children
  | spread _ _ _ => []

/-- The fields in a selection set at any depth. -/
def headsOf : List Selection → List FieldHead
  | [] => []
  | selection :: rest => heads selection ++ headsOf rest

end

/-- No two fields of the selection set stand at the same place. -/
def Placed (selections : List Selection) : Prop := ((headsOf selections).map FieldHead.pos).Nodup

end Selection

/-- In each definition of the document, no two fields stand at the same place. -/
structure Document.Placed (document : Document) : Prop where
  operations : ∀ operation ∈ document.operations, Selection.Placed operation.selections
  fragments : ∀ fragment ∈ document.fragments, Selection.Placed fragment.selections

/-- The fields of a definition. -/
def Definition.heads : Definition → List FieldHead
  | operation op => Selection.headsOf op.selections
  | fragment frag => Selection.headsOf frag.selections

/-- The fields of all operations and fragments. -/
def Document.heads (document : Document) : List FieldHead :=
  (document.operations.flatMap fun operation => Selection.headsOf operation.selections) ++
    document.fragments.flatMap fun fragment => Selection.headsOf fragment.selections

/-- A place tells which field of the document is meant. -/
def Document.Located (document : Document) : Prop :=
  ∀ head ∈ document.heads, ∀ head' ∈ document.heads, head.pos = head'.pos → head = head'

/-! ### Fields in the order of their places -/

/-- The fields stand one after the other, between two positions. -/
structure FieldHead.Between (before : Pos) (heads : List FieldHead) (after : Pos) : Prop where
  ordered : heads.Pairwise fun a b => a.pos < b.pos
  within : ∀ head ∈ heads, before ≤ head.pos ∧ head.pos < after

namespace FieldHead.Between

variable {before mid after : Pos} {heads more : List FieldHead}

private theorem nil : Between before [] after := ⟨.nil, fun _ h => absurd h (by simp)⟩

private theorem mono (h : Between mid heads after) {before' after' : Pos} (hbefore : before' ≤ mid)
    (hafter : after ≤ after') : Between before' heads after' where
  ordered := h.ordered
  within := fun head hhead =>
    ⟨le_trans hbefore (h.within head hhead).1, lt_of_lt_of_le (h.within head hhead).2 hafter⟩

private theorem append (h : Between before heads mid) (h' : Between mid more after) (hbefore : before ≤ mid)
    (hafter : mid ≤ after) : Between before (heads ++ more) after where
  ordered := by
    rw [List.pairwise_append]
    refine ⟨h.ordered, h'.ordered, fun a ha b hb => ?_⟩
    exact lt_of_lt_of_le (h.within a ha).2 (h'.within b hb).1
  within := by
    intro head hhead
    rcases List.mem_append.1 hhead with hhead | hhead
    · exact ⟨(h.within head hhead).1, lt_of_lt_of_le (h.within head hhead).2 hafter⟩
    · exact ⟨le_trans hbefore (h'.within head hhead).1, (h'.within head hhead).2⟩

private theorem singleton {head : FieldHead} (h : head.pos < after) : Between head.pos [head] after where
  ordered := List.pairwise_singleton _ _
  within := fun other hother => by
    rw [List.mem_singleton.1 hother]
    exact ⟨le_refl _, h⟩

/-- Fields that stand one after the other stand at different places. -/
private theorem nodup (h : heads.Pairwise fun a b => a.pos < b.pos) : (heads.map FieldHead.pos).Nodup := by
  unfold List.Nodup
  rw [List.pairwise_map]
  refine h.imp fun hlt heq => ?_
  rw [heq] at hlt
  exact lt_irrefl _ hlt

end FieldHead.Between

/-! ### Reading -/

namespace Parser

variable {schema : Schema}

private theorem readRequestUses_moves (schema : Schema) : Moves (readRequestUses schema) :=
  fun before => (readUses_moves before).bind fun _ _ _ _ => .pure trivial

private theorem readFieldHead_gives (schema : Schema) (first : String) (pos before : Pos) :
    Gives before (readFieldHead schema first pos) fun head _ => head.pos = pos := by
  have hrest : ∀ (names : Option String × String) (mid : Pos), Gives mid (do
      let args ← readOptionalArguments
      let directives ← readRequestUses schema
      return { aliasName := names.1, name := names.2, args, directives, pos : FieldHead }) fun head _ =>
        head.pos = pos := by
    intro names mid
    refine (readOptionalArguments_moves mid).bind fun args mid _ _ => ?_
    exact (readRequestUses_moves schema mid).bind fun _ _ _ _ => .pure rfl
  refine (consume_moves _ before).bind fun aliased mid _ _ => ?_
  split
  · exact (readName_moves _ mid).bind fun name mid _ _ => hrest (some first, name) mid
  · exact hrest (none, first) mid

/-- What is promised of the fields that a parser reads. -/
private abbrev Orders {α : Type} (p : Parser α) (heads : α → List FieldHead) : Prop :=
  ∀ before, Gives before p fun a after => FieldHead.Between before (heads a) after

private theorem readInline_orders {selectionSet : Parser (List Selection)}
    (hset : Orders selectionSet Selection.headsOf) (condition : Option String) (pos : Pos) :
    Orders (readInline schema selectionSet condition pos) Selection.heads := by
  intro before
  refine (readRequestUses_moves schema before).bind fun directives mid hmid _ => ?_
  exact (hset mid).bind fun selections after hafter h => .pure (h.mono hmid (le_refl _))

private theorem readSpread_orders {selectionSet : Parser (List Selection)}
    (hset : Orders selectionSet Selection.headsOf) (pos : Pos) :
    Orders (readSpread schema selectionSet pos) Selection.heads := by
  intro before
  have hinline (condition : Option String) {mid : Pos} (hmid : before ≤ mid) :
      Gives mid (readInline schema selectionSet condition pos) fun selection after =>
        FieldHead.Between before (Selection.heads selection) after :=
    (readInline_orders hset condition pos mid).mono fun _ _ _ h => h.mono hmid (le_refl _)
  refine (skipSpace_moves before).bind fun b mid hmid _ => (peekKeyword_moves _ mid).bind fun on mid' hmid' _ => ?_
  have hmid := le_trans hmid hmid'
  split
  · refine (discard_moves (fun before => (readToken_gives before).moves) mid').bind fun _ mid₂ hmid₂ _ => ?_
    refine (readName_moves _ mid₂).bind fun condition mid₃ hmid₃ _ => ?_
    exact hinline _ (le_trans hmid (le_trans hmid₂ hmid₃))
  · split
    · exact hinline none hmid
    · refine (readName_moves _ mid').bind fun name mid _ _ => ?_
      exact (readRequestUses_moves schema mid).bind fun _ _ _ _ => .pure .nil

private theorem readSelection_orders {selectionSet : Parser (List Selection)}
    (hset : Orders selectionSet Selection.headsOf) : Orders (readSelection schema selectionSet) Selection.heads := by
  intro before
  refine (position_gives before).bind fun pos start _ hpos => ?_
  obtain ⟨rfl, rfl⟩ := hpos
  refine (consumeSpread_moves start).bind fun spread mid hmid _ => ?_
  split
  · exact (readSpread_orders hset start mid).mono fun _ _ _ h => h.mono hmid (le_refl _)
  · refine (peek_moves mid).bind fun b mid₁ hmid₁ _ => (readToken_gives mid₁).bind fun first mid₂ _ hfirst => ?_
    refine .ite (fun _ => .fail_bind) fun hnonempty => ?_
    have hlt : start < mid₂ :=
      lt_of_le_of_lt (le_trans hmid hmid₁) (hfirst (Bool.not_eq_true _ ▸ hnonempty))
    refine (readFieldHead_gives schema first start mid₂).bind fun head mid₃ hmid₃ hhead => ?_
    refine (skipSpace_moves mid₃).bind fun b mid₄ hmid₄ _ => ?_
    subst hhead
    have hhere {after : Pos} (hafter : mid₄ ≤ after) : FieldHead.Between head.pos [head] after :=
      .singleton (lt_of_lt_of_le hlt (le_trans hmid₃ (le_trans hmid₄ hafter)))
    split
    · refine (hset mid₄).bind fun children after hafter hchildren => .pure ?_
      exact (hhere (le_refl _)).append hchildren (le_of_lt (lt_of_lt_of_le hlt (le_trans hmid₃ hmid₄))) hafter
    · exact .pure (hhere (le_refl _))

private theorem readSelections_orders {selection : Parser Selection} (hselection : Orders selection Selection.heads)
    (start : Pos) : Orders (readSelections selection start) Selection.headsOf := by
  refine Gives.fix (P := fun before selections after =>
    FieldHead.Between before (Selection.headsOf selections) after) fun more hmore before => ?_
  refine (skipSpace_moves before).bind fun b mid hmid _ => ?_
  split
  · exact (discard_moves readByte_moves mid).bind fun _ _ _ _ => .pure .nil
  · split
    · exact .failAt
    · refine (hselection mid).bind fun first mid' hmid' hfirst => ?_
      refine (hmore mid').bind fun rest after hafter hrest => .pure ?_
      exact (hfirst.append hrest hmid' hafter).mono hmid (le_refl _)

private theorem readSelectionSet_orders (schema : Schema) :
    Orders (readSelectionSet schema) Selection.headsOf := by
  refine Gives.fix (P := fun before selections after =>
    FieldHead.Between before (Selection.headsOf selections) after) fun selectionSet hset before => ?_
  refine (position_gives before).bind fun start mid hmid _ => (expect_moves _ mid).bind fun _ mid' hmid' _ => ?_
  refine (readSelections_orders (readSelection_orders hset) start mid').bind fun selections after _ h => ?_
  split
  · exact .failAt
  · exact .pure (h.mono (le_trans hmid hmid') (le_refl _))

/-! #### Definitions -/

private theorem readVariable_moves (schema : Schema) : Moves (readVariable schema) := by
  intro before
  refine (position_gives before).bind fun pos mid _ _ => (expect_moves _ mid).bind fun _ mid _ _ => ?_
  refine (readName_moves _ mid).bind fun name mid _ _ => (expect_moves _ mid).bind fun _ mid _ _ => ?_
  refine (readTypeRef_moves schema mid).bind fun type mid _ _ => (readDefault_moves mid).bind fun v mid _ _ => ?_
  exact (readRequestUses_moves schema mid).bind fun _ _ _ _ => .pure trivial

private theorem readVariables_moves (schema : Schema) (start : Pos) (read : List VariableDef) :
    Moves (readVariables schema start read) := by
  refine Moves.fixWith (fun more hmore read before => ?_) read
  refine (skipSpace_moves before).bind fun b mid _ _ => ?_
  split
  · exact (discard_moves readByte_moves mid).bind fun _ _ _ _ => .pure trivial
  · split
    · exact .failAt
    · refine (readVariable_moves schema mid).bind fun decl mid _ _ => ?_
      split
      · exact .failAt
      · exact hmore _ mid

private theorem readOptionalVariables_moves (schema : Schema) : Moves (readOptionalVariables schema) := by
  intro before
  refine (skipSpace_moves before).bind fun b mid _ _ => ?_
  split
  · refine (position_gives mid).bind fun start mid _ _ => (discard_moves readByte_moves mid).bind fun _ mid _ _ => ?_
    exact readVariables_moves schema start [] mid
  · exact .pure trivial

private theorem checkOperationName_moves (read : List Definition) (name : String) (pos : Pos) :
    Moves (checkOperationName read name pos) := fun _ => .ite (fun _ => .failAt) fun _ => .pure trivial

private theorem Orders.after {α β : Type} {p : Parser α} {f : α → Parser β} {heads : β → List FieldHead} (hp : Moves p)
    (hf : ∀ a, Orders (f a) heads) : Orders (p >>= f) heads :=
  fun before => (hp before).bind fun a mid hmid _ => (hf a mid).mono fun _ _ _ h => h.mono hmid (le_refl _)

private theorem readShortQuery_orders (schema : Schema) (read : List Definition) (pos : Pos) :
    Orders (readShortQuery schema read pos) Definition.heads :=
  .after (checkOperationName_moves read "" pos) fun _ before =>
    (readSelectionSet_orders schema before).bind fun _ _ _ h => .pure h

private theorem readOperation_orders (schema : Schema) (read : List Definition) (kind : OperationKind) (pos : Pos) :
    Orders (readOperation schema read kind pos) Definition.heads := by
  refine .after (discard_moves skipSpace_moves) fun _ => ?_
  refine .after (fun before => (readToken_gives before).moves) fun name => ?_
  refine .after (readOptionalVariables_moves schema) fun _ => .after (readRequestUses_moves schema) fun _ => ?_
  refine .after (checkOperationName_moves read name pos) fun _ before => ?_
  exact (readSelectionSet_orders schema before).bind fun _ _ _ h => .pure h

private theorem readFragment_orders (schema : Schema) (read : List Definition) (pos : Pos) :
    Orders (readFragment schema read pos) Definition.heads := by
  refine .after (readName_moves _) fun name before => .ite (fun _ => .failAt_bind) fun _ => ?_
  refine Orders.after (peekKeyword_moves _) (fun on before => .ite ?_ fun _ => ?_) before
  · exact fun _ => (skipSpace_moves before).bind fun _ _ _ _ => .fail_bind
  refine Orders.after (discard_moves fun before => (readToken_gives before).moves) (fun _ => ?_) before
  refine .after (readName_moves _) fun _ => .after (readRequestUses_moves schema) fun _ before => ?_
  refine (readSelectionSet_orders schema before).bind fun selections after _ h => ?_
  exact .ite (fun _ => .failAt_bind) fun _ => .pure h

private theorem readDefinition_orders (schema : Schema) (read : List Definition) (b : UInt8) :
    Orders (readDefinition schema read b) Definition.heads := by
  refine .after (fun before => (position_gives before).moves) fun pos before => ?_
  split
  · exact readShortQuery_orders schema read pos before
  · refine Orders.after (fun before => (readToken_gives before).moves) (fun keyword before => ?_) before
    split
    · exact readFragment_orders schema read pos before
    · split
      · exact readOperation_orders schema read _ pos before
      · split
        · exact .fail
        · exact .failAt

private theorem readDefinitions_orders (schema : Schema) (start : Pos) (read : List Definition) (before : Pos) :
    Gives before (readDefinitions schema read) fun definitions after =>
      FieldHead.Between start (read.flatMap Definition.heads) before → start ≤ before →
        FieldHead.Between start (definitions.flatMap Definition.heads) after := by
  refine Gives.fixWith (P := fun read before definitions after =>
    FieldHead.Between start (List.flatMap Definition.heads read) before → start ≤ before →
      FieldHead.Between start (List.flatMap Definition.heads definitions) after)
    (fun more hmore read before => ?_) read before
  refine (skipSpace_moves before).bind fun b mid hmid _ => ?_
  split
  · exact .pure fun hread _ => hread.mono (le_refl _) hmid
  · refine (readDefinition_orders schema read b mid).bind fun definition mid' hmid' hdefinition => ?_
    refine (hmore _ mid').mono fun definitions _ _ h hread hstart => h ?_ ?_
    · rw [List.flatMap_append, List.flatMap_singleton]
      exact (hread.mono (le_refl _) hmid).append hdefinition (le_trans hstart hmid) hmid'
    · exact le_trans hstart (le_trans hmid hmid')

end Parser

/-! ### Documents -/

namespace Document

/-- Fields of a document are fields of the definitions that it is made of. -/
theorem MadeOf.mem_heads {document : Document} {definitions : List Definition} (h : document.MadeOf definitions)
    {head : FieldHead} (hhead : head ∈ document.heads) : head ∈ definitions.flatMap Definition.heads := by
  rcases List.mem_append.1 hhead with hhead | hhead
  · obtain ⟨operation, hoperation, hhead⟩ := List.mem_flatMap.1 hhead
    exact List.mem_flatMap.2 ⟨_, h.operations operation hoperation, hhead⟩
  · obtain ⟨fragment, hfragment, hhead⟩ := List.mem_flatMap.1 hhead
    exact List.mem_flatMap.2 ⟨_, h.fragments fragment hfragment, hhead⟩

/-- If all fields stand one after the other, a place tells which one is meant. -/
private theorem MadeOf.placed_located {document : Document} {definitions : List Definition}
    (h : document.MadeOf definitions) {before after : Pos}
    (hordered : FieldHead.Between before (definitions.flatMap Definition.heads) after) :
    document.Placed ∧ document.Located := by
  have hplaced {definition : Definition} (hdefinition : definition ∈ definitions) :
      (definition.heads.map FieldHead.pos).Nodup :=
    FieldHead.Between.nodup ((List.pairwise_flatMap.1 hordered.ordered).1 definition hdefinition)
  refine ⟨⟨fun operation hoperation => hplaced (h.operations operation hoperation),
    fun fragment hfragment => hplaced (h.fragments fragment hfragment)⟩, fun head hhead head' hhead' hpos => ?_⟩
  have hnodup := FieldHead.Between.nodup hordered.ordered
  exact List.inj_on_of_nodup_map hnodup (h.mem_heads hhead) (h.mem_heads hhead') hpos

private theorem read?_placed_located {schema : Schema} {source : List UInt8} {document : Document}
    (h : Document.read? schema source = .ok document) : document.Placed ∧ document.Located := by
  unfold Document.read? at h
  split at h
  · next definitions s hok =>
    have hordered := (Parser.readDefinitions_orders schema (Scanner.ofBytes source).pos [] _ _ _ _ rfl hok).2
    exact (madeOf_ofDefinitions h).placed_located (hordered .nil (le_refl _))
  · cases h

/-- In each definition of a request that was read, no two fields stand at the same place. -/
theorem read?_placed {schema : Schema} {source : List UInt8} {document : Document}
    (h : Document.read? schema source = .ok document) : document.Placed := (read?_placed_located h).1

/-- A place in a request that was read tells which field is meant. -/
theorem read?_located {schema : Schema} {source : List UInt8} {document : Document}
    (h : Document.read? schema source = .ok document) : document.Located := (read?_placed_located h).2

end Document

/-! ### Normal forms -/

/-- A field in normal form, without what is selected below it. -/
def Coercion.normalHead (c : Coercion) (head : FieldHead) : FieldHead :=
  { head with directives := head.directives.map (c.normalUse true) }

mutual

theorem Selection.heads_normal (c : Coercion) (selection : Selection) :
    Selection.heads (c.normalSelection selection) = (Selection.heads selection).map c.normalHead := by
  cases selection with
  | field head children =>
    rw [Coercion.normalSelection, heads, heads, List.map_cons, headsOf_normal c children]
    rfl
  | inline condition directives pos children =>
    rw [Coercion.normalSelection, heads, heads, headsOf_normal c children]
  | spread fragment directives pos =>
    rw [Coercion.normalSelection, heads, heads]
    rfl

theorem Selection.headsOf_normal (c : Coercion) (selections : List Selection) :
    Selection.headsOf (c.normalSelections selections) = (Selection.headsOf selections).map c.normalHead := by
  cases selections with
  | nil =>
    rw [Coercion.normalSelections]
    rfl
  | cons selection rest =>
    rw [Coercion.normalSelections, headsOf, headsOf, List.map_append, heads_normal c selection, headsOf_normal c rest]

end

namespace Document

theorem Placed.normal {document : Document} (h : document.Placed) (schema : Schema) :
    (document.normal schema).Placed := by
  have hselections {selections : List Selection} (h : Selection.Placed selections) :
      Selection.Placed (schema.coercion.normalSelections selections) := by
    unfold Selection.Placed at h ⊢
    rw [Selection.headsOf_normal, List.map_map]
    exact h
  constructor
  · intro operation hoperation
    obtain ⟨original, horiginal, rfl⟩ := List.mem_map.1 hoperation
    exact hselections (h.operations original horiginal)
  · intro fragment hfragment
    obtain ⟨original, horiginal, rfl⟩ := List.mem_map.1 hfragment
    exact hselections (h.fragments original horiginal)

theorem heads_normal (schema : Schema) (document : Document) :
    (document.normal schema).heads = document.heads.map schema.coercion.normalHead := by
  have hoperation (operation : Operation) : Selection.headsOf (schema.coercion.normalOperation operation).selections =
      (Selection.headsOf operation.selections).map schema.coercion.normalHead := Selection.headsOf_normal _ _
  have hfragment (fragment : Fragment) : Selection.headsOf (schema.coercion.normalFragment fragment).selections =
      (Selection.headsOf fragment.selections).map schema.coercion.normalHead := Selection.headsOf_normal _ _
  unfold heads normal
  simp only [List.flatMap_map, List.map_append, List.map_flatMap, hoperation, hfragment]

theorem Located.normal {document : Document} (h : document.Located) (schema : Schema) :
    (document.normal schema).Located := by
  unfold Located
  rw [heads_normal]
  intro head hhead head' hhead' hpos
  obtain ⟨original, horiginal, rfl⟩ := List.mem_map.1 hhead
  obtain ⟨original', horiginal', rfl⟩ := List.mem_map.1 hhead'
  rw [h original horiginal original' horiginal' hpos]

end Document

namespace Schema

variable {schema : Schema} {source : List UInt8} {document : Document}

/-- In a request that is read and valid, no two fields of a definition stand at the same place. -/
theorem request?_placed (h : schema.request? source = .ok document) : document.Placed := by
  obtain ⟨read, hread, -, rfl⟩ := request?_read h
  exact (Document.read?_placed hread).normal schema

/-- A place in a request that is read and valid tells which field is meant. -/
theorem request?_located (h : schema.request? source = .ok document) : document.Located := by
  obtain ⟨read, hread, -, rfl⟩ := request?_read h
  exact (Document.read?_located hread).normal schema

end Schema

end GraphQL
