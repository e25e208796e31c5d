import GraphQL.Error.Basic
import GraphQL.Proofs.Request.Fragments
import GraphQL.Proofs.Request.Sources
import GraphQL.Proofs.Schema.Located

/-!
# Positions in requests

Definitions, variables, selections and uses of directives remember where they stand. In what is read from a request
these are positions of bytes of it, and what is wrong with a request is wrong at a position of it, also if it shows
only when all definitions are known. `Schema.reads_located` says so for schema texts and requests.
-/

namespace GraphQL

/-! ### The positions that a request remembers -/

def FieldHead.positions (head : FieldHead) : List Pos := head.pos :: head.directives.map DirectiveUse.pos

mutual

def Selection.positions : Selection → List Pos
  | field head children => head.positions ++ positionsOf children
  | inline _ directives pos children => pos :: directives.map DirectiveUse.pos ++ positionsOf children
  | spread _ directives pos => pos :: directives.map DirectiveUse.pos

def Selection.positionsOf : List Selection → List Pos
  | [] => []
  | selection :: rest => positions selection ++ positionsOf rest

end

def VariableDef.positions (decl : VariableDef) : List Pos :=
  decl.pos :: decl.type.positions ++ decl.directives.map DirectiveUse.pos

def Operation.positions (op : Operation) : List Pos :=
  op.pos :: op.variableDefs.flatMap VariableDef.positions ++ op.directives.map DirectiveUse.pos ++
    Selection.positionsOf op.selections

def Fragment.positions (frag : Fragment) : List Pos :=
  frag.pos :: frag.directives.map DirectiveUse.pos ++ Selection.positionsOf frag.selections

def Definition.positions : Definition → List Pos
  | operation op => op.positions
  | fragment frag => frag.positions

/-- All positions in a document. -/
def Document.positions (document : Document) : List Pos :=
  document.operations.flatMap Operation.positions ++ document.fragments.flatMap Fragment.positions

namespace Parser

variable {text : List UInt8} {schema : Schema} {s : Scanner}

/-! ### Selections -/

private theorem readRequestUses_marks : Marks text (readRequestUses schema) (List.map DirectiveUse.pos) := by
  refine fun s => (readUses_marks s).bind fun uses _ _ huses => .pure ?_
  have hpos (use : DirectiveUse) : (withDefaults schema use).pos = use.pos := by
    unfold withDefaults
    split <;> rfl
  rwa [map_map_congr hpos]

private theorem readFieldHead_marks {first : String} {pos : Pos} (hpos : pos.OfByte text) :
    Marks text (readFieldHead schema first pos) FieldHead.positions := by
  intro s
  -- the arguments and directives follow, with or without an alias
  have hrest (aliasName : Option String) (name : String) (s : Scanner) :
      Locates text s (do
        let args ← readOptionalArguments
        let directives ← readRequestUses schema
        return { aliasName, name, args, directives, pos : FieldHead }) fun head _ =>
          ∀ place ∈ head.positions, place.OfByte text :=
    (readOptionalArguments_keeps s).bind fun args mid _ _ => (readRequestUses_marks mid).bind fun uses _ _ huses =>
      .pure (List.forall_mem_cons.2 ⟨hpos, huses⟩)
  refine (consume_keeps _ s).bind fun found mid _ _ => .ite (fun _ => ?_) fun _ => hrest none first mid
  exact (readName_keeps _ mid).bind fun name mid _ _ => hrest (some first) name mid

/-- What is promised of a selection set. -/
private abbrev MarksSet (text : List UInt8) (p : Parser (List Selection)) : Prop := Marks text p Selection.positionsOf

private theorem readInline_marks {selectionSet : Parser (List Selection)} (hset : MarksSet text selectionSet)
    {condition : Option String} {pos : Pos} (hpos : pos.OfByte text) :
    Marks text (readInline schema selectionSet condition pos) Selection.positions := by
  refine fun s => (readRequestUses_marks s).bind fun uses mid _ huses => ?_
  refine (hset mid).bind fun children _ _ hchildren => .pure ?_
  exact List.forall_mem_cons.2 ⟨hpos, List.forall_mem_append.2 ⟨huses, hchildren⟩⟩

private theorem readSpread_marks {selectionSet : Parser (List Selection)} (hset : MarksSet text selectionSet)
    {pos : Pos} (hpos : pos.OfByte text) : Marks text (readSpread schema selectionSet pos) Selection.positions := by
  refine fun s => .skip fun b mid _ _ => (peekKeyword_keeps _ mid).bind fun on mid _ _ => ?_
  refine .ite (fun _ => ?_) fun _ => ?_
  · refine (discard_keeps readToken_keeps mid).bind fun _ mid _ _ => ?_
    exact (readName_keeps _ mid).bind fun condition mid _ _ => readInline_marks hset hpos mid
  · refine .ite (fun _ => readInline_marks hset hpos mid) fun _ => (readName_keeps _ mid).bind fun name mid _ _ => ?_
    exact (readRequestUses_marks mid).bind fun uses _ _ huses => .pure (List.forall_mem_cons.2 ⟨hpos, huses⟩)

private theorem readSelection_locates {selectionSet : Parser (List Selection)} (hset : MarksSet text selectionSet)
    (hs : s.pos.OfByte text) :
    Locates text s (readSelection schema selectionSet) fun selection _ =>
      ∀ pos ∈ selection.positions, pos.OfByte text := by
  refine .here fun _ => (consumeSpread_keeps s).bind fun spread mid _ _ => ?_
  refine .ite (fun _ => readSpread_marks hset hs mid) fun _ => (peek_keeps mid).bind fun b mid _ _ => ?_
  refine (readToken_keeps mid).bind fun first mid _ _ => .ite (fun _ => .fail_bind) fun _ => ?_
  refine (readFieldHead_marks hs mid).bind fun head mid _ hhead => .skip fun b mid _ _ => ?_
  refine .ite (fun _ => ?_) fun _ => ?_
  · exact (hset mid).bind fun children _ _ hchildren => .pure (List.forall_mem_append.2 ⟨hhead, hchildren⟩)
  · exact .pure (List.forall_mem_append.2 ⟨hhead, nofun⟩)

private theorem readSelections_marks {selection : Parser Selection}
    (hselection : ∀ s : Scanner, s.pos.OfByte text →
      Locates text s selection fun selection _ => ∀ pos ∈ selection.positions, pos.OfByte text)
    {start : Pos} (hstart : start.In text) : MarksSet text (readSelections selection start) := by
  refine Marks.fix fun more hmore s => .skip fun b mid _ hb => .ite (fun _ => ?_) fun _ => ?_
  · exact (discard_keeps readByte_keeps mid).bind fun _ _ _ _ => .pure nofun
  · refine .ite (fun _ => .failAt hstart) fun hbyte => ?_
    refine (hselection mid (hb fun hzero => hbyte (beq_iff_eq.2 hzero))).bind fun first mid _ hfirst => ?_
    exact (hmore mid).bind fun rest _ _ hrest => .pure (List.forall_mem_append.2 ⟨hfirst, hrest⟩)

private theorem readSelectionSet_marks : MarksSet text (readSelectionSet schema) := by
  refine Marks.fix fun selectionSet hset s => .here fun hs => (expect_keeps _ s).bind fun _ mid _ _ => ?_
  have hselection (s : Scanner) (hs : s.pos.OfByte text) := @readSelection_locates text schema s selectionSet hset hs
  refine (readSelections_marks hselection hs.pos_in mid).bind fun selections _ _ h => ?_
  exact .ite (fun _ => .failAt hs.pos_in) fun _ => .pure h

/-! ### Definitions -/

private theorem readVariable_locates (hs : s.pos.OfByte text) :
    Locates text s (readVariable schema) fun decl _ => ∀ pos ∈ decl.positions, pos.OfByte text := by
  refine .here fun _ => (expect_keeps _ s).bind fun _ mid _ _ => (readName_keeps _ mid).bind fun name mid _ _ => ?_
  refine (expect_keeps _ mid).bind fun _ mid _ _ => (readTypeRef_marks mid).bind fun type mid _ htype => ?_
  refine (readDefault_keeps mid).bind fun v mid _ _ => (readRequestUses_marks mid).bind fun uses _ _ huses => .pure ?_
  exact List.forall_mem_cons.2 ⟨hs, List.forall_mem_append.2 ⟨htype, huses⟩⟩

private theorem readVariables_marks {start : Pos} (hstart : start.In text) :
    Marks text (readVariables schema start []) (List.flatMap VariableDef.positions) := by
  refine Marks.fixWith (List.flatMap VariableDef.positions)
    (fun more hmore read hread s => .skip fun b mid _ hb => ?_) nofun
  refine .ite (fun _ => ?_) fun _ => .ite (fun _ => .failAt hstart) fun hbyte => ?_
  · exact (discard_keeps readByte_keeps mid).bind fun _ _ _ _ => .pure hread
  · have hhere := hb fun hzero => hbyte (beq_iff_eq.2 hzero)
    refine (readVariable_locates hhere).bind fun decl mid _ hdecl => .ite (fun _ => .failAt ?_) fun _ => ?_
    · exact (hdecl decl.pos List.mem_cons_self).isIn
    · exact hmore _ (forall_flatMap_append hread hdecl) mid

private theorem readOptionalVariables_marks :
    Marks text (readOptionalVariables schema) (List.flatMap VariableDef.positions) := by
  refine fun s => .skip fun b mid _ _ => .ite (fun _ => .here fun hmid => ?_) fun _ => .pure nofun
  exact (discard_keeps readByte_keeps mid).bind fun _ mid _ _ => readVariables_marks hmid.pos_in mid

section Definitions

variable {read : List Definition} {pos : Pos} (hpos : pos.OfByte text)

include hpos

private theorem checkOperationName_keeps (name : String) : Keeps text (checkOperationName read name pos) := fun _ =>
  .ite (fun _ => .failAt hpos.isIn) fun _ => .pure trivial

private theorem readShortQuery_marks : Marks text (readShortQuery schema read pos) Definition.positions := by
  refine fun s => (checkOperationName_keeps hpos "" s).bind fun _ mid _ _ => ?_
  exact (readSelectionSet_marks mid).bind fun selections _ _ h => .pure (List.forall_mem_cons.2 ⟨hpos, h⟩)

private theorem readOperation_marks (kind : OperationKind) :
    Marks text (readOperation schema read kind pos) Definition.positions := by
  refine fun s => (discard_keeps skipSpace_keeps s).bind fun _ mid _ _ => ?_
  refine (readToken_keeps mid).bind fun name mid _ _ => ?_
  refine (readOptionalVariables_marks mid).bind fun decls mid _ hdecls => ?_
  refine (readRequestUses_marks mid).bind fun uses mid _ huses => ?_
  refine (checkOperationName_keeps hpos name mid).bind fun _ mid _ _ => ?_
  refine (readSelectionSet_marks mid).bind fun selections _ _ hselections => .pure ?_
  have hinside := List.forall_mem_append.2 ⟨List.forall_mem_append.2 ⟨hdecls, huses⟩, hselections⟩
  exact List.forall_mem_cons.2 ⟨hpos, hinside⟩

private theorem readFragment_marks : Marks text (readFragment schema read pos) Definition.positions := by
  refine fun s => (readName_keeps _ s).bind fun name mid _ _ => .ite (fun _ => .failAt_bind hpos.isIn) fun _ => ?_
  refine (peekKeyword_keeps _ mid).bind fun on mid _ _ => .ite (fun _ => .skip fun _ _ _ _ => .fail_bind) fun _ => ?_
  refine (discard_keeps readToken_keeps mid).bind fun _ mid _ _ => ?_
  refine (readName_keeps _ mid).bind fun condition mid _ _ => ?_
  refine (readRequestUses_marks mid).bind fun uses mid _ huses => ?_
  refine (readSelectionSet_marks mid).bind fun selections mid _ hselections => ?_
  refine .ite (fun _ => .failAt_bind hpos.isIn) fun _ => .pure ?_
  exact List.forall_mem_cons.2 ⟨hpos, List.forall_mem_append.2 ⟨huses, hselections⟩⟩

end Definitions

private theorem readDefinition_locates (read : List Definition) (b : UInt8) (hs : s.pos.OfByte text) :
    Locates text s (readDefinition schema read b) fun definition _ =>
      ∀ pos ∈ definition.positions, pos.OfByte text := by
  refine .here fun _ => .ite (fun _ => readShortQuery_marks hs s) fun _ => ?_
  refine (readToken_keeps s).bind fun keyword mid _ _ => .ite (fun _ => readFragment_marks hs mid) fun _ => ?_
  split
  · exact readOperation_marks hs _ mid
  · exact .ite (fun _ => .fail) fun _ => .failAt hs.isIn

private theorem readDefinitions_marks :
    Marks text (readDefinitions schema []) (List.flatMap Definition.positions) := by
  refine Marks.fixWith (List.flatMap Definition.positions)
    (fun more hmore read hread s => .skip fun b mid _ hb => ?_) nofun
  refine .ite (fun _ => .pure hread) fun hbyte => ?_
  have hhere := hb fun hzero => hbyte (beq_iff_eq.2 hzero)
  refine (readDefinition_locates read b hhere).bind fun definition mid _ hdefinition => ?_
  exact hmore _ (forall_flatMap_append hread hdefinition) mid

end Parser

/-! ### Documents -/

mutual

/-- A spread is mentioned where it stands. -/
private theorem Selection.mem_positions_of_spread {selection : Selection} {mention : String × Pos}
    (h : mention ∈ selection.spreads) : mention.2 ∈ selection.positions := by
  match selection with
  | field head children =>
    rw [spreads] at h
    exact List.mem_append_right _ (mem_positionsOf_of_spread h)
  | inline condition directives pos children =>
    rw [spreads] at h
    exact List.mem_append_right _ (mem_positionsOf_of_spread h)
  | spread fragment directives pos =>
    rw [spreads, List.mem_singleton] at h
    subst h
    exact List.mem_cons_self

private theorem Selection.mem_positionsOf_of_spread {selections : List Selection} {mention : String × Pos}
    (h : mention ∈ spreadsOf selections) : mention.2 ∈ positionsOf selections := by
  match selections with
  | [] => cases h
  | selection :: rest =>
    rw [spreadsOf, List.mem_append] at h
    exact List.mem_append.2 (h.imp mem_positions_of_spread mem_positionsOf_of_spread)

end

namespace Definition

theorem mem_positions_of_mention {definition : Definition} {mention : String × Pos}
    (h : mention ∈ definition.mentions) : mention.2 ∈ definition.positions := by
  cases definition with
  | operation op => exact List.mem_append_right _ (Selection.mem_positionsOf_of_spread h)
  | fragment frag =>
    rcases List.mem_append.1 h with h | h
    · exact List.mem_append_right _ (Selection.mem_positionsOf_of_spread h)
    · cases List.mem_singleton.1 h
      exact List.mem_cons_self

theorem mem_mentions_of_mem_fragmentNames {definitions : List Definition} {mention : String × Pos}
    (h : mention ∈ fragmentNames definitions) : mention ∈ definitions.flatMap mentions := by
  unfold fragmentNames at h
  generalize definitions.flatMap mentions = found at h ⊢
  induction found using List.reverseRecOn with
  | nil => cases h
  | append_singleton found last ih =>
    rw [List.foldl_append, List.foldl_cons, List.foldl_nil] at h
    split at h
    · exact List.mem_append_left _ (ih h)
    · exact List.mem_append.2 ((List.mem_append.1 h).imp_left ih)

end Definition

namespace Document

variable {definitions : List Definition}

/-- What is wrong with definitions is wrong at one of their positions. -/
theorem ofDefinitions_error_pos {e : SyntaxError} (h : ofDefinitions definitions = .error e) :
    e.pos ∈ definitions.flatMap Definition.positions := by
  rcases ofDefinitions_error h with ⟨op, hop, rfl⟩ | ⟨mention, hmention, rfl⟩
  · exact List.mem_flatMap.2 ⟨_, hop, List.mem_cons_self⟩
  · obtain ⟨definition, hdefinition, hmention⟩ :=
      List.mem_flatMap.1 (Definition.mem_mentions_of_mem_fragmentNames hmention)
    exact List.mem_flatMap.2 ⟨definition, hdefinition, Definition.mem_positions_of_mention hmention⟩

theorem MadeOf.mem_positions {document : Document} (h : document.MadeOf definitions) {pos : Pos}
    (hpos : pos ∈ document.positions) : pos ∈ definitions.flatMap Definition.positions := by
  rcases List.mem_append.1 hpos with hpos | hpos
  · obtain ⟨op, hop, hpos⟩ := List.mem_flatMap.1 hpos
    exact List.mem_flatMap.2 ⟨_, h.operations op hop, hpos⟩
  · obtain ⟨frag, hfrag, hpos⟩ := List.mem_flatMap.1 hpos
    exact List.mem_flatMap.2 ⟨_, h.fragments frag hfrag, hpos⟩

end Document

/-! ### Sources -/

/-- The text of a source, without the byte order mark that may stand in front of it. -/
def textOf (source : List UInt8) : List UInt8 := (Scanner.ofBytes source).rest

theorem length_textOf_le (source : List UInt8) : (textOf source).length ≤ source.length := by
  unfold textOf Scanner.ofBytes
  split
  · simp
    omega
  · exact Nat.le_refl _

/-- What a parser that marks positions gives on a source. -/
private theorem Parser.Marks.run {α : Type} {p : Parser α} {positions : α → List Pos} {source : List UInt8}
    (h : Marks (textOf source) p positions) :
    (∀ a s, p (.ofBytes source) = .ok a s → ∀ pos ∈ positions a, pos.OfByte (textOf source)) ∧
      ∀ e s, p (.ofBytes source) = .error e s → e.pos.In (textOf source) := by
  obtain ⟨hok, herror⟩ := h _ (Scanner.in_ofBytes source)
  exact ⟨fun a s heq => (hok a s heq).2, herror⟩

private theorem Schema.read?_positions (schema : Schema) (source : List UInt8) :
    (∀ declarations, schema.read? source = .ok declarations →
        ∀ pos ∈ declarations.flatMap Declaration.positions, pos.OfByte (textOf source)) ∧
      ∀ e, schema.read? source = .error e → e.pos.In (textOf source) := by
  have hmarks : Parser.Marks (textOf source) (Parser.readDeclarations schema) (List.flatMap Declaration.positions) :=
    Parser.readDeclarations_marks
  obtain ⟨hok, herror⟩ := hmarks.run
  unfold Schema.read?
  split
  · next declarations s hread =>
    refine ⟨fun declarations' heq => ?_, nofun⟩
    cases heq
    exact hok _ _ hread
  · next e s hread =>
    refine ⟨nofun, fun e' heq => ?_⟩
    cases heq
    exact herror _ _ hread

private theorem Document.read?_positions (schema : Schema) (source : List UInt8) :
    (∀ document, Document.read? schema source = .ok document →
        ∀ pos ∈ document.positions, pos.OfByte (textOf source)) ∧
      ∀ e, Document.read? schema source = .error e → e.pos.In (textOf source) := by
  have hmarks : Parser.Marks (textOf source) (Parser.readDefinitions schema []) (List.flatMap Definition.positions) :=
    Parser.readDefinitions_marks
  obtain ⟨hok, herror⟩ := hmarks.run
  unfold Document.read?
  split
  · next definitions s hread =>
    have hpositions := hok _ _ hread
    refine ⟨fun document hdocument pos hpos => hpositions pos ?_, fun e herror => (hpositions e.pos ?_).isIn⟩
    · exact (madeOf_ofDefinitions hdocument).mem_positions hpos
    · exact ofDefinitions_error_pos herror
  · next e s hread =>
    refine ⟨nofun, fun e' heq => ?_⟩
    cases heq
    exact herror _ _ hread

/-- What is wrong with a schema text or a request is an error of reading, at the position of an offset of the source,
its end included. All that is read from them stands at positions of bytes. The byte order mark does not count. -/
theorem Schema.reads_located (schema : Schema) (source : List UInt8) (hsize : source.length < 2 ^ 32 - 1) :
    (∀ e, schema.read? source = .error e ∨ Document.read? schema source = .error e →
        (Error.ofSyntax e).kind = .parse ∧
          ∃ pos, (Error.ofSyntax e).pos = some pos ∧ pos.In (textOf source) ∧ pos.Fits) ∧
      (∀ declarations, schema.read? source = .ok declarations →
        ∀ pos ∈ declarations.flatMap Declaration.positions, pos.OfByte (textOf source) ∧ pos.Fits) ∧
        ∀ document, Document.read? schema source = .ok document →
          ∀ pos ∈ document.positions, pos.OfByte (textOf source) ∧ pos.Fits := by
  have htext : (textOf source).length < 2 ^ 32 - 1 := Nat.lt_of_le_of_lt (length_textOf_le source) hsize
  obtain ⟨hdeclarations, hschema⟩ := schema.read?_positions source
  obtain ⟨hdocument, hrequest⟩ := Document.read?_positions schema source
  refine ⟨fun e herror => ?_, fun declarations h pos hpos => ?_, fun document h pos hpos => ?_⟩
  · have hin : e.pos.In (textOf source) := herror.elim (hschema e) (hrequest e)
    exact ⟨rfl, e.pos, rfl, hin, hin.fits htext⟩
  · have hbyte := hdeclarations declarations h pos hpos
    exact ⟨hbyte, hbyte.isIn.fits htext⟩
  · have hbyte := hdocument document h pos hpos
    exact ⟨hbyte, hbyte.isIn.fits htext⟩

/-- Behind a byte order mark, a fragment that is not there is missed where it is spread. -/
theorem missing_fragment_located :
    Document.read? {} [0xef, 0xbb, 0xbf, 0x7b, 0x2e, 0x2e, 0x2e, 0x41, 0x7d] =
        .error ⟨.undefinedFragment "A", ⟨1, 2⟩⟩ ∧
      (⟨1, 2⟩ : Pos).In [0x7b, 0x2e, 0x2e, 0x2e, 0x41, 0x7d] := by
  have hread : Document.read? {} [0xef, 0xbb, 0xbf, 0x7b, 0x2e, 0x2e, 0x2e, 0x41, 0x7d] =
      .error ⟨.undefinedFragment "A", ⟨1, 2⟩⟩ := by
    cbv
  obtain ⟨-, pos, hpos, hin, -⟩ := (Schema.reads_located {} _ (by decide)).1 _ (.inr hread)
  cases hpos
  exact ⟨hread, hin⟩

end GraphQL
