import GraphQL.Proofs.Text.Located
import GraphQL.Schema.Reader

/-!
# Positions in schema texts

Everything with a name, every use of a directive and every name of a type that is not resolved remembers where it
stands. In what is read from a schema text these are positions of bytes of the text, and what is wrong with a text is
wrong at a position of it (`Parser.readDeclarations_marks`).
-/

namespace GraphQL

/-! ### The positions that declarations remember -/

def TypeRef.positions (type : TypeRef) : List Pos := type.unresolvedPos?.toList

def InputValue.positions (value : InputValue) : List Pos :=
  value.pos :: value.type.positions ++ value.directives.map DirectiveUse.pos

def FieldDef.positions (field : FieldDef) : List Pos :=
  field.pos :: field.args.flatMap InputValue.positions ++ field.type.positions ++
    field.directives.map DirectiveUse.pos

def EnumValue.positions (value : EnumValue) : List Pos := value.pos :: value.directives.map DirectiveUse.pos

def ObjectBody.positions (body : ObjectBody) : List Pos :=
  body.interfaces.flatMap TypeRef.positions ++ body.fields.flatMap FieldDef.positions

def SchemaRoots.positions (roots : SchemaRoots) : List Pos :=
  (roots.query.toList ++ roots.mutation.toList ++ roots.subscription.toList).flatMap TypeRef.positions

def TypeBody.positions : TypeBody → List Pos
  | scalar _ => []
  | object body => body.positions
  | interface body => body.positions
  | union members => members.flatMap TypeRef.positions
  | enum values => values.flatMap EnumValue.positions
  | input fields => fields.flatMap InputValue.positions
  | schema roots => roots.positions

def TypeDecl.positions (type : TypeDecl) : List Pos :=
  type.pos :: type.directives.map DirectiveUse.pos ++ type.body.positions

def DirectiveDecl.positions (decl : DirectiveDecl) : List Pos := decl.pos :: decl.args.flatMap InputValue.positions

/-- All positions in a declaration. -/
def Declaration.positions : Declaration → List Pos
  | type decl => decl.positions
  | directive decl => decl.positions
  | .extension decl => decl.positions

namespace Parser

variable {text : List UInt8} {schema : Schema} {s : Scanner}

/-- A byte that is one other than zero. -/
theorem ne_zero_of_beq {b mark : UInt8} (h : (b == mark) = true) (hmark : mark ≠ 0) : b ≠ 0 := eq_of_beq h ▸ hmark

/-! ### Literals -/

private theorem readNumber_keeps : Keeps text readNumber := by
  refine fun s => .here fun hs => (span_keeps _ s).bind fun run mid _ _ => ?_
  refine (peek_keeps mid).bind fun next mid _ _ => .ite (fun _ => .fail) fun _ => ?_
  split
  · exact .pure trivial
  · exact .failAt hs.pos_in

private theorem readItems_keeps {value : Parser Value} (hvalue : Keeps text value) {start : Pos}
    (hstart : start.In text) : Keeps text (readItems value start) := by
  refine Keeps.fix fun more hmore s => .skip fun b mid _ _ => ?_
  refine .ite (fun _ => ?_) fun _ => .ite (fun _ => .failAt hstart) fun _ => ?_
  · exact (discard_keeps readByte_keeps mid).bind fun _ _ _ _ => .pure trivial
  · exact (hvalue mid).bind fun _ mid _ _ => (hmore mid).bind fun _ _ _ _ => .pure trivial

private theorem readKey_keeps (next : UInt8) : Keeps text (readKey next) := fun s =>
  .ite (fun _ => readString_keeps s) fun _ => readName_keeps _ s

private theorem readEntries_keeps {value : Parser Value} (hvalue : Keeps text value) {start : Pos}
    (hstart : start.In text) (read : List (String × Value)) : Keeps text (readEntries value start read) := by
  refine Keeps.fixWith (fun more hmore read s => .skip fun b mid _ _ => .here fun hmid => ?_) read
  refine .ite (fun _ => ?_) fun _ => .ite (fun _ => .failAt hstart) fun _ => ?_
  · exact (discard_keeps readByte_keeps mid).bind fun _ _ _ _ => .pure trivial
  · refine (readKey_keeps b mid).bind fun key mid _ _ => (expect_keeps _ mid).bind fun _ mid _ _ => ?_
    refine (hvalue mid).bind fun v mid _ _ => ?_
    exact .ite (fun _ => .failAt hmid.pos_in) fun _ => hmore _ mid

theorem readValue_keeps : Keeps text readValue := by
  refine Keeps.fix fun value hvalue s => .skip fun b mid _ _ => ?_
  refine .ite (fun _ => ?_) fun _ => .ite (fun _ => ?_) fun _ => .ite (fun _ => ?_) fun _ =>
    .ite (fun _ => ?_) fun _ => .ite (fun _ => readNumber_keeps mid) fun _ => .ite (fun _ => ?_) fun _ => .fail
  · exact (readString_keeps mid).bind fun _ _ _ _ => .pure trivial
  · refine (discard_keeps readByte_keeps mid).bind fun _ mid _ _ => .here fun hmid => ?_
    refine (readToken_keeps mid).bind fun name mid _ _ => ?_
    exact .ite (fun _ => .failAt hmid.pos_in) fun _ => .pure trivial
  · refine .here fun hmid => (discard_keeps readByte_keeps mid).bind fun _ mid _ _ => ?_
    exact (readItems_keeps hvalue hmid.pos_in mid).bind fun _ _ _ _ => .pure trivial
  · refine .here fun hmid => (discard_keeps readByte_keeps mid).bind fun _ mid _ _ => ?_
    exact (readEntries_keeps hvalue hmid.pos_in [] mid).bind fun _ _ _ _ => .pure trivial
  · exact (readToken_keeps mid).bind fun _ _ _ _ => .pure trivial

/-! ### Uses of directives -/

private theorem readArguments_keeps {start : Pos} (hstart : start.In text) (read : List (String × Value)) :
    Keeps text (readArguments start read) := by
  refine Keeps.fixWith (fun more hmore read s => .skip fun b mid _ _ => ?_) read
  refine .ite (fun _ => ?_) fun _ => .ite (fun _ => .failAt hstart) fun _ => .here fun hmid => ?_
  · exact (discard_keeps readByte_keeps mid).bind fun _ _ _ _ => .pure trivial
  · refine (readName_keeps _ mid).bind fun name mid _ _ => (expect_keeps _ mid).bind fun _ mid _ _ => ?_
    refine (readValue_keeps mid).bind fun v mid _ _ => ?_
    exact .ite (fun _ => .failAt hmid.pos_in) fun _ => hmore _ mid

theorem readOptionalArguments_keeps : Keeps text readOptionalArguments := by
  refine fun s => .skip fun b mid _ _ => .ite (fun _ => .here fun hmid => ?_) fun _ => .pure trivial
  exact (discard_keeps readByte_keeps mid).bind fun _ mid _ _ => readArguments_keeps hmid.pos_in [] mid

theorem readUses_marks : Marks text readUses (List.map DirectiveUse.pos) := by
  refine Marks.fix fun more hmore s => .skip fun b mid _ hb => ?_
  refine .ite (fun hat => .here fun _ => ?_) fun _ => .pure nofun
  refine (discard_keeps readByte_keeps mid).bind fun _ mid _ _ => (readName_keeps _ mid).bind fun name mid _ _ => ?_
  refine (readOptionalArguments_keeps mid).bind fun args mid _ _ => (hmore mid).bind fun uses _ _ huses => .pure ?_
  exact List.forall_mem_cons.2 ⟨hb (ne_zero_of_beq hat (by decide)), huses⟩

/-! ### References -/

private theorem namedRef_positions {name : String} {pos : Pos} (hpos : pos.OfByte text) :
    ∀ place ∈ (namedRef schema name pos).positions, place.OfByte text := by
  unfold namedRef
  split
  · exact nofun
  · exact List.forall_mem_singleton.2 hpos

private theorem readNamedRef_marks : Marks text (readNamedRef schema) TypeRef.positions := fun _ =>
  .named fun _ _ _ hpos => .pure (namedRef_positions hpos)

private theorem readNonNull_marks {type : TypeRef} (h : ∀ pos ∈ type.positions, pos.OfByte text) :
    Marks text (readNonNull type) TypeRef.positions := by
  refine fun s => .skip fun b mid _ _ => .ite (fun _ => ?_) fun _ => .pure h
  refine (discard_keeps readByte_keeps mid).bind fun _ mid _ _ => (peek_keeps mid).bind fun next mid _ _ => ?_
  exact .ite (fun _ => .fail_bind) fun _ => .pure h

theorem readTypeRef_marks : Marks text (readTypeRef schema) TypeRef.positions := by
  refine Marks.fix fun typeRef htypeRef s => .skip fun b mid _ _ => .here fun _ => .ite (fun _ => ?_) fun _ => ?_
  · refine (discard_keeps readByte_keeps mid).bind fun _ mid _ _ => (htypeRef mid).bind fun item mid _ hitem => ?_
    exact (expect_keeps _ mid).bind fun _ mid _ _ => @readNonNull_marks text (.list item) hitem mid
  · refine readToken_locates.bind fun name last _ hname => .ite (fun _ => .fail_bind) fun hnonempty => ?_
    exact readNonNull_marks (namedRef_positions (hname (Bool.not_eq_true _ ▸ hnonempty))) last

private theorem readNamedRefs_marks (separator : UInt8) :
    Marks text (readNamedRefs schema separator) (List.flatMap TypeRef.positions) := by
  refine fun s => (discard_keeps (consume_keeps separator) s).bind fun _ mid _ _ => ?_
  refine @Marks.fix _ text (List.flatMap TypeRef.positions) _ (fun more hmore s => ?_) mid
  refine (readNamedRef_marks s).bind fun type mid _ htype => (consume_keeps separator mid).bind fun b mid _ _ => ?_
  refine .ite (fun _ => (hmore mid).bind fun types _ _ htypes => .pure ?_) fun _ => .pure ?_
  · exact List.forall_mem_append.2 ⟨htype, htypes⟩
  · rwa [List.flatMap_singleton]

/-! ### Members -/

private theorem readDescription_keeps : Keeps text readDescription := by
  refine fun s => .skip fun b mid _ _ => .ite (fun _ => ?_) fun _ => .pure trivial
  exact (readString_keeps mid).bind fun _ _ _ _ => .pure trivial

theorem readDefault_keeps : Keeps text readDefault := by
  refine fun s => (consume_keeps _ s).bind fun b mid _ _ => .ite (fun _ => ?_) fun _ => .pure trivial
  exact (readValue_keeps mid).bind fun _ _ _ _ => .pure trivial

private theorem readInputValue_marks : Marks text (readInputValue schema) InputValue.positions := by
  refine fun s => (readDescription_keeps s).bind fun description mid _ _ => .named fun pos name mid hpos => ?_
  refine (expect_keeps _ mid).bind fun _ mid _ _ => (readTypeRef_marks mid).bind fun type mid _ htype => ?_
  refine (readDefault_keeps mid).bind fun v mid _ _ => (readUses_marks mid).bind fun uses mid _ huses => .pure ?_
  exact List.forall_mem_cons.2 ⟨hpos, List.forall_mem_append.2 ⟨htype, huses⟩⟩

/-- The positions of what is read are added to those of what was read before. -/
theorem forall_flatMap_append {α : Type} {positions : α → List Pos} {read : List α} {a : α}
    (hread : ∀ pos ∈ read.flatMap positions, pos.OfByte text) (ha : ∀ pos ∈ positions a, pos.OfByte text) :
    ∀ pos ∈ (read ++ [a]).flatMap positions, pos.OfByte text := by
  rw [List.flatMap_append, List.flatMap_singleton]
  exact List.forall_mem_append.2 ⟨hread, ha⟩

private theorem readArgumentDecls_marks {start : Pos} (hstart : start.In text) :
    Marks text (readArgumentDecls schema start []) (List.flatMap InputValue.positions) := by
  refine Marks.fixWith (List.flatMap InputValue.positions)
    (fun more hmore read hread s => .skip fun b mid _ _ => ?_) nofun
  refine .ite (fun _ => ?_) fun _ => .ite (fun _ => .failAt hstart) fun _ => ?_
  · exact (discard_keeps readByte_keeps mid).bind fun _ _ _ _ => .pure hread
  · refine (readInputValue_marks mid).bind fun arg mid _ harg => .ite (fun _ => .failAt ?_) fun _ => ?_
    · exact (harg arg.pos List.mem_cons_self).isIn
    · exact hmore _ (forall_flatMap_append hread harg) mid

private theorem readOptionalArgumentDecls_marks :
    Marks text (readOptionalArgumentDecls schema) (List.flatMap InputValue.positions) := by
  refine fun s => .skip fun b mid _ _ => .ite (fun _ => .here fun hmid => ?_) fun _ => .pure nofun
  exact (discard_keeps readByte_keeps mid).bind fun _ mid _ _ => readArgumentDecls_marks hmid.pos_in mid

private theorem readField_marks : Marks text (readField schema) FieldDef.positions := by
  refine fun s => (readDescription_keeps s).bind fun description mid _ _ => .named fun pos name mid hpos => ?_
  refine (readOptionalArgumentDecls_marks mid).bind fun args mid _ hargs => ?_
  refine (expect_keeps _ mid).bind fun _ mid _ _ => (readTypeRef_marks mid).bind fun type mid _ htype => ?_
  refine (readUses_marks mid).bind fun uses mid _ huses => .pure ?_
  have hmembers := List.forall_mem_append.2 ⟨List.forall_mem_append.2 ⟨hargs, htype⟩, huses⟩
  exact List.forall_mem_cons.2 ⟨hpos, hmembers⟩

private theorem readSymbol_marks : Marks text readSymbol EnumValue.positions := by
  refine fun s => (readDescription_keeps s).bind fun description mid _ _ => .named fun pos name mid hpos => ?_
  exact (readUses_marks mid).bind fun uses mid _ huses => .pure (List.forall_mem_cons.2 ⟨hpos, huses⟩)

section Body

variable {α : Type} [HasName α] {member : Parser α} {positions : α → List Pos} {place : α → Pos}

private theorem readMembers_marks (hmember : Marks text member positions) (hplace : ∀ a, place a ∈ positions a)
    (duplicate : String → SyntaxCause) (owner : String) {start : Pos} (hstart : start.In text) :
    Marks text (readMembers member place duplicate owner start []) (List.flatMap positions) := by
  refine Marks.fixWith (List.flatMap positions) (fun more hmore read hread s => ?_) nofun
  refine (consume_keeps _ s).bind fun closed mid _ _ => .ite (fun _ => .pure hread) fun _ => ?_
  refine .skip fun b mid _ _ => .ite (fun _ => .failAt hstart) fun _ => ?_
  refine (hmember mid).bind fun a mid _ ha => .ite (fun _ => .failAt (ha _ (hplace a)).isIn) fun _ => ?_
  exact hmore _ (forall_flatMap_append hread ha) mid

private theorem readBody_marks (hmember : Marks text member positions) (hplace : ∀ a, place a ∈ positions a)
    (duplicate : String → SyntaxCause) (owner : String) {start : Pos} (hstart : start.In text) :
    Marks text (readBody member place duplicate owner start) (List.flatMap positions) := fun s =>
  (consume_keeps _ s).bind fun _ mid _ _ =>
    .ite (fun _ => readMembers_marks hmember hplace duplicate owner hstart mid) fun _ => .pure nofun

end Body

/-! ### Declarations -/

private theorem putRoot_positions {roots more : SchemaRoots} {kind : OperationKind} {type : TypeRef}
    (h : putRoot roots kind type = some more) (hroots : ∀ pos ∈ roots.positions, pos.OfByte text)
    (htype : ∀ pos ∈ type.positions, pos.OfByte text) : ∀ pos ∈ more.positions, pos.OfByte text := by
  unfold putRoot at h
  split at h
  · cases h
  · cases h
    simp only [SchemaRoots.positions, List.flatMap_append, List.forall_mem_append] at hroots ⊢
    obtain ⟨⟨hquery, hmutation⟩, hsubscription⟩ := hroots
    have hroot : ∀ pos ∈ (some type).toList.flatMap TypeRef.positions, pos.OfByte text := by
      rwa [Option.toList_some, List.flatMap_singleton]
    cases kind with
    | query => exact ⟨⟨hroot, hmutation⟩, hsubscription⟩
    | mutation => exact ⟨⟨hquery, hroot⟩, hsubscription⟩
    | subscription => exact ⟨⟨hquery, hmutation⟩, hroot⟩

private theorem readRoots_marks {start : Pos} (hstart : start.In text) :
    Marks text (readRoots schema start {}) SchemaRoots.positions := by
  refine Marks.fixWith SchemaRoots.positions (fun more hmore read hread s => .skip fun b mid _ _ => ?_) nofun
  refine .ite (fun _ => ?_) fun _ => .ite (fun _ => .failAt hstart) fun _ => .here fun hmid => ?_
  · exact (discard_keeps readByte_keeps mid).bind fun _ _ _ _ => .pure hread
  · refine (readName_keeps _ mid).bind fun operation mid _ _ => (expect_keeps _ mid).bind fun _ mid _ _ => ?_
    refine (readNamedRef_marks mid).bind fun type mid _ htype => ?_
    split
    · exact .failAt hmid.pos_in
    · split
      · exact .failAt hmid.pos_in
      · next roots hroots => exact hmore roots (putRoot_positions hroots hread htype) mid

private theorem readInterfaces_marks : Marks text (readInterfaces schema) (List.flatMap TypeRef.positions) := by
  refine fun s => (peekKeyword_keeps _ s).bind fun found mid _ _ => .ite (fun _ => ?_) fun _ => .pure nofun
  exact (discard_keeps readToken_keeps mid).bind fun _ mid _ _ => readNamedRefs_marks _ mid

section Types

variable {pos : Pos} (hpos : pos.OfByte text)

include hpos

private theorem readSchemaDecl_marks : Marks text (readSchemaDecl schema pos) TypeDecl.positions := by
  refine fun s => (readUses_marks s).bind fun uses mid _ huses => (consume_keeps _ mid).bind fun opened mid _ _ => ?_
  have hdecl {roots : SchemaRoots} (hroots : ∀ pos ∈ roots.positions, pos.OfByte text) :
      ∀ place ∈ TypeDecl.positions { name := "schema", directives := uses, pos, body := .schema roots },
        place.OfByte text :=
    List.forall_mem_cons.2 ⟨hpos, List.forall_mem_append.2 ⟨huses, hroots⟩⟩
  refine .ite (fun _ => ?_) fun _ => .pure (hdecl nofun)
  exact (readRoots_marks hpos.isIn mid).bind fun roots mid _ hroots => .pure (hdecl hroots)

private theorem readObject_marks (make : ObjectBody → TypeBody)
    (hmake : ∀ body, (make body).positions = body.positions) :
    Marks text (readObject schema make pos) TypeDecl.positions := by
  refine fun s => (readName_keeps _ s).bind fun name mid _ _ => ?_
  refine (readInterfaces_marks mid).bind fun interfaces mid _ hinterfaces => ?_
  refine (readUses_marks mid).bind fun uses mid _ huses => ?_
  refine (readBody_marks readField_marks (fun _ => List.mem_cons_self) _ _ hpos.isIn mid).bind
    fun fields mid _ hfields => .pure (List.forall_mem_cons.2 ⟨hpos, List.forall_mem_append.2 ⟨huses, ?_⟩⟩)
  rw [hmake]
  exact List.forall_mem_append.2 ⟨hinterfaces, hfields⟩

private theorem readUnion_marks : Marks text (readUnion schema pos) TypeDecl.positions := by
  refine fun s => (readName_keeps _ s).bind fun name mid _ _ => (readUses_marks mid).bind fun uses mid _ huses => ?_
  have hdecl {members : List TypeRef} (hmembers : ∀ place ∈ members.flatMap TypeRef.positions, place.OfByte text) :
      ∀ place ∈ TypeDecl.positions { name, directives := uses, pos, body := .union members }, place.OfByte text :=
    List.forall_mem_cons.2 ⟨hpos, List.forall_mem_append.2 ⟨huses, hmembers⟩⟩
  refine (consume_keeps _ mid).bind fun found mid _ _ => .ite (fun _ => ?_) fun _ => .pure (hdecl nofun)
  exact (readNamedRefs_marks _ mid).bind fun members mid _ hmembers => .pure (hdecl hmembers)

private theorem readEnum_marks : Marks text (readEnum pos) TypeDecl.positions := by
  refine fun s => (readName_keeps _ s).bind fun name mid _ _ => (readUses_marks mid).bind fun uses mid _ huses => ?_
  refine (readBody_marks readSymbol_marks (fun _ => List.mem_cons_self) _ _ hpos.isIn mid).bind
    fun values mid _ hvalues => .pure ?_
  exact List.forall_mem_cons.2 ⟨hpos, List.forall_mem_append.2 ⟨huses, hvalues⟩⟩

private theorem readInput_marks : Marks text (readInput schema pos) TypeDecl.positions := by
  refine fun s => (readName_keeps _ s).bind fun name mid _ _ => (readUses_marks mid).bind fun uses mid _ huses => ?_
  refine (readBody_marks readInputValue_marks (fun _ => List.mem_cons_self) _ _ hpos.isIn mid).bind
    fun fields mid _ hfields => .pure ?_
  exact List.forall_mem_cons.2 ⟨hpos, List.forall_mem_append.2 ⟨huses, hfields⟩⟩

private theorem readScalar_marks : Marks text (readScalar schema pos) TypeDecl.positions := by
  refine fun s => (readName_keeps _ s).bind fun name mid _ _ => (readUses_marks mid).bind fun uses mid _ huses => ?_
  exact .pure (List.forall_mem_cons.2 ⟨hpos, List.forall_mem_append.2 ⟨huses, nofun⟩⟩)

private theorem readTypeDecl?_marks {keyword : String} {p : Parser TypeDecl}
    (h : readTypeDecl? schema keyword pos = some p) : Marks text p TypeDecl.positions := by
  unfold readTypeDecl? at h
  split at h <;> cases h
  · exact readSchemaDecl_marks hpos
  · exact readObject_marks hpos .object fun _ => rfl
  · exact readObject_marks hpos .interface fun _ => rfl
  · exact readUnion_marks hpos
  · exact readEnum_marks hpos
  · exact readInput_marks hpos
  · exact readScalar_marks hpos

end Types

private theorem readLocations_keeps (read : List DirectiveLocation) : Keeps text (readLocations read) := by
  refine Keeps.fixWith (fun more hmore read s => .named fun pos name mid hpos => ?_) read
  split
  · exact .failAt hpos.isIn
  · exact (consume_keeps _ mid).bind fun found mid _ _ => .ite (fun _ => hmore _ mid) fun _ => .pure trivial

private theorem readDirective_marks {pos : Pos} (hpos : pos.OfByte text) :
    Marks text (readDirective schema pos) DirectiveDecl.positions := by
  refine fun s => (expect_keeps _ s).bind fun _ mid _ _ => (readName_keeps _ mid).bind fun name mid _ _ => ?_
  refine (readOptionalArgumentDecls_marks mid).bind fun args mid _ hargs => ?_
  refine (peekKeyword_keeps _ mid).bind fun repeatable mid _ _ => ?_
  -- the places of the directive follow, whether or not it is repeatable
  have hrest (mid : Scanner) :
      Locates text mid (do
        if !(← peekKeyword "on") then
          fail (.expected "'on'" (← skipSpace))
        discard readToken
        discard (consume 0x7c)
        let locations ← readLocations []
        return { name, args, locations, repeatable, pos : DirectiveDecl }) fun decl _ =>
          ∀ place ∈ decl.positions, place.OfByte text := by
    refine (peekKeyword_keeps _ mid).bind fun found mid _ _ => .ite (fun _ => ?_) fun _ => ?_
    · exact .skip fun _ _ _ _ => .fail_bind
    · refine (discard_keeps readToken_keeps mid).bind fun _ mid _ _ => ?_
      refine (discard_keeps (consume_keeps _) mid).bind fun _ mid _ _ => ?_
      exact (readLocations_keeps [] mid).bind fun _ _ _ _ => .pure (List.forall_mem_cons.2 ⟨hpos, hargs⟩)
  exact .ite (fun _ => (discard_keeps readToken_keeps mid).bind fun _ mid _ _ => hrest mid) fun _ => hrest mid

private theorem failKeyword_locates {α : Type} {keyword : String} {pos : Pos} (hpos : pos.In text) {found : UInt8}
    {P : α → Scanner → Prop} : Locates text s (failKeyword keyword pos found) P :=
  .ite (fun _ => .fail) fun _ => .failAt hpos

/-- A keyword that starts a declaration begins with a byte. -/
private theorem ofByte_of_keyword {keyword : String} {pos : Pos} {p : Parser TypeDecl}
    (h : readTypeDecl? schema keyword pos = some p) (hkeyword : keyword.isEmpty = false → pos.OfByte text) :
    pos.OfByte text := by
  refine hkeyword (Bool.not_eq_true _ ▸ fun hempty => ?_)
  rw [String.isEmpty_iff] at hempty
  subst hempty
  cases h

private theorem readExtension_marks (description : Option String) :
    Marks text (readExtension schema description) Declaration.positions := by
  refine fun s => .skip fun b mid hmid _ => .here fun _ => ?_
  refine readToken_locates.bind fun keyword last _ hkeyword => ?_
  split
  · next hdecl =>
    exact (readTypeDecl?_marks (ofByte_of_keyword hdecl hkeyword) hdecl last).bind fun _ _ _ h => .pure h
  · refine .ite (fun hdirective => ?_) fun _ => failKeyword_locates hmid.pos_in
    have hpos := hkeyword (by rw [hdirective]; decide)
    exact (discard_keeps (readDirective_marks hpos).keeps last).bind fun _ _ _ _ => .failAt hmid.pos_in

private theorem readDeclaration_marks : Marks text (readDeclaration schema) Declaration.positions := by
  refine fun s => (readDescription_keeps s).bind fun description mid _ _ => ?_
  refine .skip fun b mid hmid _ => .here fun _ => ?_
  refine readToken_locates.bind fun keyword last _ hkeyword => .ite (fun _ => .fail_bind) fun hnonempty => ?_
  have hpos := hkeyword (Bool.not_eq_true _ ▸ hnonempty)
  refine .ite (fun _ => readExtension_marks description last) fun _ => ?_
  split
  · next hdecl => exact (readTypeDecl?_marks hpos hdecl last).bind fun _ _ _ h => .pure h
  · refine .ite (fun _ => ?_) fun _ => failKeyword_locates hmid.pos_in
    exact (readDirective_marks hpos last).bind fun _ _ _ h => .pure h

theorem readDeclarations_marks :
    Marks text (readDeclarations schema) (List.flatMap Declaration.positions) := by
  refine Marks.fix fun more hmore s => .skip fun b mid _ _ => .ite (fun _ => .pure nofun) fun _ => ?_
  refine (readDeclaration_marks mid).bind fun declaration mid _ hdeclaration => ?_
  exact (hmore mid).bind fun declarations mid _ hdeclarations =>
    .pure (List.forall_mem_append.2 ⟨hdeclaration, hdeclarations⟩)

end Parser

end GraphQL
