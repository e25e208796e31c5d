import GraphQL.Proofs.Schema.Writable
import GraphQL.Proofs.Text.Tokens

/-!
# Schema texts in step

Two schema texts that differ in their layout only are read alike: the same literals, references, members and
declarations come out of them, save for their positions (`Parser.readDeclarations_inStep`). Each parser takes the same
branch on both texts, since it looks at nothing but bytes that are not skipped.
-/

namespace GraphQL

namespace Parser

variable {α γ : Type} {room : Room}

/-- What two parsers read from sources that differ in their layout only is the same but for what `f` leaves out. -/
abbrev InStepUpTo (strict : Bool) (room : Room) (f : α → γ) (p p' : Parser α) : Prop :=
  InStep strict room Respaced p p' (fun a a' => f a = f a') fun _ => Respaced

/-- What two parsers read from sources that differ in their layout only is the same. -/
abbrev InStepExactly (strict : Bool) (room : Room) (p p' : Parser α) : Prop :=
  InStep strict room Respaced p p' Eq fun _ => Respaced

/-! ### Literals -/

private theorem isBare_of_isNumber {b : UInt8} (h : Byte.isNumber b = true) : Byte.isBare b = true := by
  revert h
  simp only [Byte.isNumber, Byte.isDigit, Byte.isBare, Byte.isSignificant, Byte.isSpace, Bool.or_eq_true,
    Bool.and_eq_true, Bool.not_eq_true', Bool.or_eq_false_iff, decide_eq_true_eq, beq_iff_eq, beq_eq_false_iff_ne,
    bne_iff_ne, ne_eq, UInt8.le_iff_toNat_le, ← UInt8.toNat_inj, UInt8.reduceToNat]
  omega

private theorem endsNumber_of_skipped {b : UInt8} (h : Byte.isSignificant b = false) : Byte.endsNumber b = true := by
  unfold Byte.isSignificant at h
  cases hspace : Byte.isSpace b with
  | true => simp [Byte.endsNumber, hspace]
  | false =>
    obtain rfl : b = 0x23 := by simpa [hspace] using h
    decide

theorem readNumber_inStep {b : UInt8} (hb : Byte.isNumber b = true) :
    InStep true room (Facing b) readNumber readNumber Eq fun _ => Respaced := by
  refine position_bind fun pos pos' => InStep.stepSame (A := fun _ => Respaced) ?_ fun run => ?_
  · exact span_facing (fun _ _ _ hb h => h.cons (isBare_of_isNumber hb)) (by decide) hb
  refine peek_inStep.bind fun next next' hnext => ?_
  have hskipped {b : UInt8} (h : Byte.isSignificant b = false) : ¬(!Byte.endsNumber b) = true := by
    rw [endsNumber_of_skipped h]
    decide
  rcases hnext with rfl | ⟨hnext, hnext'⟩
  · refine .ite Iff.rfl (fun _ => .fail nofun) fun _ => ?_
    cases numberValue? run with
    | none => exact .failAt nofun
    | some v => exact .pure rfl fun _ _ => id
  · rw [if_neg (hskipped hnext), if_neg (hskipped hnext')]
    cases numberValue? run with
    | none => exact .failAt nofun
    | some v => exact .pure rfl fun _ _ => id

private theorem readItems_inStep {value value' : Parser Value} (hvalue : InStepExactly true room value value')
    (start start' : Pos) : InStepExactly false room (readItems value start) (readItems value' start') := by
  refine .fix fun room' hroom more more' hmore => skip fun b => ?_
  refine .ite Iff.rfl (fun h => ?_) fun _ => .ite Iff.rfl (fun _ => .failAt nofun) fun _ => ?_
  · exact (readMark (by decide) h).step fun _ _ _ => .pure rfl fun _ _ => id
  · refine ((hvalue.within hroom).starting fun _ _ h => h.respaced).stepSame fun v => ?_
    exact hmore.bindSame fun rest => .pure rfl fun _ _ => id

private theorem readKey_inStep (b : UInt8) :
    InStep true room (Facing b) (readKey b) (readKey b) Eq fun _ => Respaced := by
  refine .ite Iff.rfl (fun h => ?_) fun _ => (readName_inStep _).starting fun _ _ h => h.respaced
  rw [eq_of_beq h]
  exact readString_inStep

private theorem readEntries_inStep {value value' : Parser Value} (hvalue : InStepExactly true room value value')
    (start start' : Pos) (read : List (String × Value)) :
    InStepExactly false room (readEntries value start read) (readEntries value' start' read) := by
  refine .fixWith Eq (fun room' hroom more more' hmore read _ hread => ?_) rfl
  subst hread
  refine skip fun b => position_bind fun pos pos' => ?_
  refine .ite Iff.rfl (fun h => ?_) fun _ => .ite Iff.rfl (fun _ => .failAt nofun) fun _ => ?_
  · exact (readMark (by decide) h).step fun _ _ _ => .pure rfl fun _ _ => id
  · refine (readKey_inStep b).stepSame fun key => (expect_inStep (by decide)).weak.bind fun _ _ _ => ?_
    refine (hvalue.within (le_trans room'.less_le hroom)).weak.bindSame fun v => ?_
    exact .ite Iff.rfl (fun _ => .failAt nofun) fun _ => hmore _ _ rfl

theorem readValue_inStep : InStepExactly true room readValue readValue := by
  refine .fix fun room' _ value value' hvalue => skip fun b => ?_
  refine .ite Iff.rfl (fun h => ?_) fun _ => .ite Iff.rfl (fun h => ?_) fun _ => .ite Iff.rfl (fun h => ?_) fun _ =>
    .ite Iff.rfl (fun h => ?_) fun _ => .ite Iff.rfl (fun h => ?_) fun _ => .ite Iff.rfl (fun h => ?_) fun _ =>
      .fail nofun
  · rw [eq_of_beq h]
    exact readString_inStep.stepSame fun _ => .pure rfl fun _ _ => id
  · refine (readMark (by decide) h).step fun _ _ _ => position_bind fun pos pos' => ?_
    refine readToken_inStep.bindSame fun name => ?_
    exact .ite Iff.rfl (fun _ => .failAt nofun) fun _ => .pure rfl fun _ _ => id
  · refine position_bind fun start start' => (readMark (by decide) h).step fun _ _ _ => ?_
    exact (readItems_inStep hvalue start start').bindSame fun _ => .pure rfl fun _ _ => id
  · refine position_bind fun start start' => (readMark (by decide) h).step fun _ _ _ => ?_
    exact (readEntries_inStep hvalue start start' []).bindSame fun _ => .pure rfl fun _ _ => id
  · refine readNumber_inStep ?_
    simp only [Bool.or_eq_true] at h
    unfold Byte.isNumber
    rcases h with ((h | h) | h) | h <;> simp [h]
  · exact (readToken_word h).stepSame fun _ => .pure rfl fun _ _ => id

/-! ### References -/

private theorem namedRef_alike (schema : Schema) (name : String) (pos pos' : Pos) :
    (namedRef schema name pos).unplaced = (namedRef schema name pos').unplaced :=
  (TypeRef.unplaced_namedRef schema name pos).trans (TypeRef.unplaced_namedRef schema name pos').symm

theorem readNamedRef_inStep (schema : Schema) :
    InStepUpTo true room TypeRef.unplaced (readNamedRef schema) (readNamedRef schema) := by
  refine discard_skipSpace_inStep.bind fun _ _ _ => position_bind fun pos pos' => ?_
  exact (readName_inStep _).stepSame fun name => .pure (namedRef_alike schema name pos pos') fun _ _ => id

private theorem readNonNull_inStep {type type' : TypeRef} (h : type.unplaced = type'.unplaced) :
    InStepUpTo false room TypeRef.unplaced (readNonNull type) (readNonNull type') := by
  refine skip fun b => .ite Iff.rfl (fun hb => ?_) fun _ => .pure h fun _ _ h => h.respaced
  refine (readMark (by decide) hb).step fun _ _ _ => peek_inStep.bind fun next next' hnext => .ite ?_ ?_ fun _ => ?_
  · -- a mark is not skipped
    have hmark {b : UInt8} (hb : Byte.isSignificant b = false) : ¬(b == 0x21) = true := by
      intro heq
      rw [eq_of_beq heq] at hb
      exact absurd hb (by decide)
    rcases hnext with rfl | ⟨hnext, hnext'⟩
    · exact Iff.rfl
    · exact iff_of_false (hmark hnext) (hmark hnext')
  · exact fun _ => .fail_bind nofun
  · exact .pure (congrArg TypeRef.nonNull h) fun _ _ => id

theorem readTypeRef_inStep (schema : Schema) :
    InStepUpTo true room TypeRef.unplaced (readTypeRef schema) (readTypeRef schema) := by
  refine .fix fun room' _ typeRef typeRef' htypeRef => skip fun b => position_bind fun pos pos' => ?_
  refine .ite Iff.rfl (fun h => ?_) fun _ => ?_
  · refine (readMark (by decide) h).step fun _ _ _ => htypeRef.weak.bind fun item item' hitem => ?_
    exact (expect_inStep (by decide)).weak.bind fun _ _ _ => readNonNull_inStep (congrArg TypeRef.list hitem)
  · refine readToken_bind (fun _ _ h => h.respaced) (.ite Iff.rfl (fun _ => .fail_bind nofun) fun h => absurd rfl h) ?_
    refine fun name => .ite Iff.rfl (fun _ => .fail_bind nofun) fun _ => readNonNull_inStep ?_
    exact namedRef_alike schema name pos pos'

theorem readNamedRefs_inStep (schema : Schema) {separator : UInt8} (hseparator : IsMark separator) :
    InStepUpTo true room (List.map TypeRef.unplaced) (readNamedRefs schema separator)
      (readNamedRefs schema separator) := by
  refine (consume_inStep hseparator).discard.bind fun _ _ _ => .fix fun room' _ more more' hmore => ?_
  refine (readNamedRef_inStep schema).step fun type type' htype => (consume_inStep hseparator).bindSame fun found => ?_
  refine .ite Iff.rfl (fun _ => hmore.weak.bind fun types types' htypes => ?_) fun _ => ?_
  · exact .pure (congrArg₂ List.cons htype htypes) fun _ _ => id
  · exact .pure (congrArg (fun type => [type]) htype) fun _ _ => id

/-! ### Uses of directives -/

private theorem readArguments_inStep (start start' : Pos) (read : List (String × Value)) :
    InStepExactly false room (readArguments start read) (readArguments start' read) := by
  refine .fixWith Eq (fun room' hroom more more' hmore read _ hread => ?_) rfl
  subst hread
  refine skip fun b => .ite Iff.rfl (fun h => ?_) fun _ => .ite Iff.rfl (fun _ => .failAt nofun) fun _ => ?_
  · exact (readMark (by decide) h).step fun _ _ _ => .pure rfl fun _ _ => id
  · refine position_bind fun pos pos' => ((readName_inStep _).starting fun _ _ h => h.respaced).stepSame fun name => ?_
    refine (expect_inStep (by decide)).weak.bind fun _ _ _ => readValue_inStep.weak.bindSame fun v => ?_
    exact .ite Iff.rfl (fun _ => .failAt nofun) fun _ => hmore _ _ rfl

theorem readOptionalArguments_inStep : InStepExactly false room readOptionalArguments readOptionalArguments := by
  refine skip fun b => .ite Iff.rfl (fun h => ?_) fun _ => .pure rfl fun _ _ h => h.respaced
  refine position_bind fun start start' => (readMark (by decide) h).step fun _ _ _ => ?_
  exact readArguments_inStep start start' []

theorem readUses_inStep : InStepUpTo false room (List.map DirectiveUse.unplaced) readUses readUses := by
  refine .fix fun room' _ more more' hmore => skip fun b => .ite Iff.rfl (fun h => ?_) fun _ => ?_
  · refine position_bind fun pos pos' => (readMark (by decide) h).step fun _ _ _ => ?_
    refine (readName_inStep _).weak.bindSame fun name => readOptionalArguments_inStep.bindSame fun args => ?_
    exact hmore.bind fun uses uses' huses => .pure (congrArg (List.cons _) huses) fun _ _ => id
  · exact .pure rfl fun _ _ h => h.respaced

/-! ### Members -/

private theorem readDescription_inStep : InStepExactly false room readDescription readDescription := by
  refine skip fun b => .ite Iff.rfl (fun h => ?_) fun _ => .pure rfl fun _ _ h => h.respaced
  rw [eq_of_beq h]
  exact readString_inStep.stepSame fun _ => .pure rfl fun _ _ => id

theorem readDefault_inStep : InStepExactly false room readDefault readDefault := by
  refine (consume_inStep (by decide)).bindSame fun found => .ite Iff.rfl (fun _ => ?_) fun _ => .pure rfl fun _ _ => id
  exact readValue_inStep.weak.bindSame fun _ => .pure rfl fun _ _ => id

private theorem readInputValue_inStep (schema : Schema) :
    InStepUpTo true room (InputValue.unplaced TypeRef.unplaced) (readInputValue schema) (readInputValue schema) := by
  refine readDescription_inStep.bindSame fun description => discard_skipSpace_inStep.bind fun _ _ _ => ?_
  refine position_bind fun pos pos' => (readName_inStep _).stepSame fun name => ?_
  refine (expect_inStep (by decide)).weak.bind fun _ _ _ => ?_
  refine (readTypeRef_inStep schema).weak.bind fun type type' htype => ?_
  refine readDefault_inStep.bindSame fun v => readUses_inStep.bind fun uses uses' huses => .pure ?_ fun _ _ => id
  simp only [InputValue.unplaced, htype, huses]

section Members

variable [HasName α] (f : α → α) (hname : ∀ a, HasName.name (f a) = HasName.name a)

include hname

theorem contains_congr (name : String) {members members' : List α} (h : members.map f = members'.map f) :
    Members.contains name members = Members.contains name members' := by
  rw [← Members.contains_map hname, h, Members.contains_map hname]

/-- A member is added to the members read before, unless its name is taken. -/
theorem addMember_inStep {β : Type} {g : β → γ} {a a' : α} {read read' : List α} {pos pos' : Pos}
    {duplicate : String → SyntaxCause} {more more' : List α → Parser β} (ha : f a = f a')
    (hread : read.map f = read'.map f) (hduplicate : ∀ name, duplicate name ≠ .stalled)
    (hmore : ∀ read read', read.map f = read'.map f → InStepUpTo false room g (more read) (more' read')) :
    InStepUpTo false room g
      (if Members.contains (HasName.name a) read then failAt pos (duplicate (HasName.name a)) else more (read ++ [a]))
      (if Members.contains (HasName.name a') read' then failAt pos' (duplicate (HasName.name a'))
        else more' (read' ++ [a'])) := by
  have hnames : HasName.name a = HasName.name a' := by rw [← hname a, ha, hname a']
  rw [hnames, contains_congr f hname _ hread]
  refine .ite Iff.rfl (fun _ => .failAt (hduplicate _)) fun _ => hmore _ _ ?_
  rw [List.map_append, List.map_append, hread, List.map_singleton, List.map_singleton, ha]

end Members

private theorem readArgumentDecls_inStep (schema : Schema) (start start' : Pos) :
    InStepUpTo false room (List.map (InputValue.unplaced TypeRef.unplaced)) (readArgumentDecls schema start [])
      (readArgumentDecls schema start' []) := by
  refine .fixWith (fun read read' => read.map (InputValue.unplaced TypeRef.unplaced) =
    read'.map (InputValue.unplaced TypeRef.unplaced)) (fun room' hroom more more' hmore read read' hread => ?_) rfl
  refine skip fun b => .ite Iff.rfl (fun h => ?_) fun _ => .ite Iff.rfl (fun _ => .failAt nofun) fun _ => ?_
  · exact (readMark (by decide) h).step fun _ _ _ => .pure hread fun _ _ => id
  · refine ((readInputValue_inStep schema).starting fun _ _ h => h.respaced).step fun arg arg' harg => ?_
    exact addMember_inStep (InputValue.unplaced TypeRef.unplaced) (fun _ => rfl) harg hread nofun hmore

private theorem readOptionalArgumentDecls_inStep (schema : Schema) :
    InStepUpTo false room (List.map (InputValue.unplaced TypeRef.unplaced)) (readOptionalArgumentDecls schema)
      (readOptionalArgumentDecls schema) := by
  refine skip fun b => .ite Iff.rfl (fun h => ?_) fun _ => .pure rfl fun _ _ h => h.respaced
  refine position_bind fun start start' => (readMark (by decide) h).step fun _ _ _ => ?_
  exact readArgumentDecls_inStep schema start start'

private theorem readField_inStep (schema : Schema) :
    InStepUpTo true room (FieldDef.unplaced TypeRef.unplaced) (readField schema) (readField schema) := by
  refine readDescription_inStep.bindSame fun description => discard_skipSpace_inStep.bind fun _ _ _ => ?_
  refine position_bind fun pos pos' => (readName_inStep _).stepSame fun name => ?_
  refine (readOptionalArgumentDecls_inStep schema).bind fun args args' hargs => ?_
  refine (expect_inStep (by decide)).weak.bind fun _ _ _ => ?_
  refine (readTypeRef_inStep schema).weak.bind fun type type' htype => ?_
  refine readUses_inStep.bind fun uses uses' huses => .pure ?_ fun _ _ => id
  simp only [FieldDef.unplaced, hargs, htype, huses]

private theorem readSymbol_inStep : InStepUpTo true room EnumValue.unplaced readSymbol readSymbol := by
  refine readDescription_inStep.bindSame fun description => discard_skipSpace_inStep.bind fun _ _ _ => ?_
  refine position_bind fun pos pos' => (readName_inStep _).stepSame fun name => ?_
  refine readUses_inStep.bind fun uses uses' huses => .pure ?_ fun _ _ => id
  simp only [EnumValue.unplaced, huses]

section Body

variable [HasName α] (f : α → α) (hname : ∀ a, HasName.name (f a) = HasName.name a) {member : Parser α}
  (hmember : ∀ {room : Room}, InStepUpTo true room f member member) (place : α → Pos)
  (duplicate : String → SyntaxCause) (hduplicate : ∀ name, duplicate name ≠ .stalled)

include hname hmember hduplicate

private theorem readMembers_inStep (owner : String) (start start' : Pos) :
    InStepUpTo false room (List.map f) (readMembers member place duplicate owner start [])
      (readMembers member place duplicate owner start' []) := by
  refine .fixWith (fun read read' => read.map f = read'.map f)
    (fun room' hroom more more' hmore read read' hread => ?_) rfl
  refine (consume_inStep (by decide)).bindSame fun closed => ?_
  refine .ite Iff.rfl (fun _ => .pure hread fun _ _ => id) fun _ => ?_
  refine skip fun b => .ite Iff.rfl (fun _ => .failAt nofun) fun _ => ?_
  refine (hmember.starting fun _ _ h => h.respaced).step fun a a' ha => ?_
  exact addMember_inStep f hname ha hread hduplicate hmore

private theorem readBody_inStep (owner : String) (start start' : Pos) :
    InStepUpTo false room (List.map f) (readBody member place duplicate owner start)
      (readBody member place duplicate owner start') := by
  refine (consume_inStep (by decide)).bindSame fun opened => .ite Iff.rfl (fun _ => ?_) fun _ => .pure rfl fun _ _ => id
  exact readMembers_inStep f hname hmember place duplicate hduplicate owner start start'

end Body

/-! ### Declarations -/

private theorem putRoot_congr {ref : TypeRef → TypeRef} {roots roots' : SchemaRoots} {type type' : TypeRef}
    (hroots : roots.unplaced ref = roots'.unplaced ref) (htype : ref type = ref type') (kind : OperationKind) :
    (putRoot roots kind type).map (SchemaRoots.unplaced ref) =
      (putRoot roots' kind type').map (SchemaRoots.unplaced ref) := by
  have hunplaced (roots : SchemaRoots) (type : TypeRef) : (putRoot roots kind type).map (SchemaRoots.unplaced ref) =
      putRoot (roots.unplaced ref) kind (ref type) := by
    obtain ⟨query, mutation, subscription⟩ := roots
    cases kind with
    | query => cases query <;> rfl
    | mutation => cases mutation <;> rfl
    | subscription => cases subscription <;> rfl
  rw [hunplaced, hunplaced, hroots, htype]

private theorem readRoots_inStep (schema : Schema) (start start' : Pos) :
    InStepUpTo false room (SchemaRoots.unplaced TypeRef.unplaced) (readRoots schema start {})
      (readRoots schema start' {}) := by
  refine .fixWith (fun read read' => read.unplaced TypeRef.unplaced = read'.unplaced TypeRef.unplaced)
    (fun room' hroom more more' hmore read read' hread => ?_) rfl
  refine skip fun b => .ite Iff.rfl (fun h => ?_) fun _ => .ite Iff.rfl (fun _ => .failAt nofun) fun _ => ?_
  · exact (readMark (by decide) h).step fun _ _ _ => .pure hread fun _ _ => id
  · refine position_bind fun pos pos' => ?_
    refine ((readName_inStep _).starting fun _ _ h => h.respaced).stepSame fun operation => ?_
    refine (expect_inStep (by decide)).weak.bind fun _ _ _ => ?_
    refine (readNamedRef_inStep schema).weak.bind fun type type' htype => ?_
    cases OperationKind.ofText? operation with
    | none => exact .failAt nofun
    | some kind =>
      have hput := putRoot_congr hread htype kind
      dsimp only
      generalize putRoot read kind type = roots, putRoot read' kind type' = roots' at hput ⊢
      match roots, roots', hput with
      | none, none, _ => exact .failAt nofun
      | some roots, some roots', hroots => exact hmore _ _ (Option.some.inj hroots)

/-- What is declared of a type is the same but for positions. -/
private abbrev DeclInStep (room : Room) (p p' : Parser TypeDecl) : Prop :=
  InStepUpTo false room (TypeDecl.unplaced TypeRef.unplaced) p p'

private theorem readSchemaDecl_inStep (schema : Schema) (pos pos' : Pos) :
    DeclInStep room (readSchemaDecl schema pos) (readSchemaDecl schema pos') := by
  refine readUses_inStep.bind fun uses uses' huses => (consume_inStep (by decide)).bindSame fun opened => ?_
  have hdecl {roots roots' : SchemaRoots}
      (hroots : roots.unplaced TypeRef.unplaced = roots'.unplaced TypeRef.unplaced) :
      DeclInStep room
        (pure { name := "schema", directives := uses, pos, body := .schema roots })
        (pure { name := "schema", directives := uses', pos := pos', body := .schema roots' }) := by
    refine .pure ?_ fun _ _ => id
    simp only [TypeDecl.unplaced, TypeBody.unplaced, huses, hroots]
  refine .ite Iff.rfl (fun _ => ?_) fun _ => hdecl rfl
  exact (readRoots_inStep schema pos pos').bind fun roots roots' hroots => hdecl hroots

private theorem readInterfaces_inStep (schema : Schema) :
    InStepUpTo false room (List.map TypeRef.unplaced) (readInterfaces schema) (readInterfaces schema) := by
  refine (peekKeyword_inStep (by cbv)).bindSame fun found => .ite Iff.rfl (fun _ => ?_) fun _ => .pure rfl fun _ _ => id
  exact readToken_inStep.discard.bind fun _ _ _ => (readNamedRefs_inStep schema (by decide)).weak

private theorem readObject_inStep (schema : Schema) {make : ObjectBody → TypeBody}
    (hmake : ∀ body : ObjectBody, (make body).unplaced TypeRef.unplaced = make (body.unplaced TypeRef.unplaced))
    (pos pos' : Pos) : DeclInStep room (readObject schema make pos) (readObject schema make pos') := by
  refine (readName_inStep _).weak.bindSame fun name => (readInterfaces_inStep schema).bind fun types types' htypes => ?_
  refine readUses_inStep.bind fun uses uses' huses => ?_
  refine (readBody_inStep (FieldDef.unplaced TypeRef.unplaced) (fun _ => rfl) (readField_inStep schema) FieldDef.pos
    (.duplicateField name) (fun _ => nofun) name pos pos').bind fun fields fields' hfields => .pure ?_ fun _ _ => id
  simp only [TypeDecl.unplaced, hmake, ObjectBody.unplaced, htypes, huses, hfields]

private theorem readUnion_inStep (schema : Schema) (pos pos' : Pos) :
    DeclInStep room (readUnion schema pos) (readUnion schema pos') := by
  refine (readName_inStep _).weak.bindSame fun name => readUses_inStep.bind fun uses uses' huses => ?_
  refine (consume_inStep (by decide)).bindSame fun found => ?_
  have hdecl {types types' : List TypeRef} (htypes : types.map TypeRef.unplaced = types'.map TypeRef.unplaced) :
      DeclInStep room
        (pure { name, directives := uses, pos, body := .union types })
        (pure { name, directives := uses', pos := pos', body := .union types' }) := by
    refine .pure ?_ fun _ _ => id
    simp only [TypeDecl.unplaced, TypeBody.unplaced, huses, htypes]
  refine .ite Iff.rfl (fun _ => ?_) fun _ => hdecl rfl
  exact (readNamedRefs_inStep schema (by decide)).weak.bind fun types types' htypes => hdecl htypes

private theorem readEnum_inStep (pos pos' : Pos) : DeclInStep room (readEnum pos) (readEnum pos') := by
  refine (readName_inStep _).weak.bindSame fun name => readUses_inStep.bind fun uses uses' huses => ?_
  refine (readBody_inStep EnumValue.unplaced (fun _ => rfl) readSymbol_inStep EnumValue.pos .duplicateEnumValue
    (fun _ => nofun) name pos pos').bind fun values values' hvalues => .pure ?_ fun _ _ => id
  simp only [TypeDecl.unplaced, TypeBody.unplaced, huses, hvalues]

private theorem readInput_inStep (schema : Schema) (pos pos' : Pos) :
    DeclInStep room (readInput schema pos) (readInput schema pos') := by
  refine (readName_inStep _).weak.bindSame fun name => readUses_inStep.bind fun uses uses' huses => ?_
  refine (readBody_inStep (InputValue.unplaced TypeRef.unplaced) (fun _ => rfl) (readInputValue_inStep schema)
    InputValue.pos (.duplicateField name) (fun _ => nofun) name pos pos').bind fun fields fields' hfields =>
      .pure ?_ fun _ _ => id
  simp only [TypeDecl.unplaced, TypeBody.unplaced, huses, hfields]

private theorem readScalar_inStep (schema : Schema) (pos pos' : Pos) :
    DeclInStep room (readScalar schema pos) (readScalar schema pos') := by
  refine (readName_inStep _).weak.bindSame fun name => readUses_inStep.bind fun uses uses' huses => ?_
  refine .pure ?_ fun _ _ => id
  simp only [TypeDecl.unplaced, huses]

private theorem readLocations_inStep (read : List DirectiveLocation) :
    InStepExactly false room (readLocations read) (readLocations read) := by
  refine .fixWith Eq (fun room' hroom more more' hmore read _ hread => ?_) rfl
  subst hread
  refine discard_skipSpace_inStep.bind fun _ _ _ => position_bind fun pos pos' => ?_
  refine (readName_inStep _).stepSame fun name => ?_
  cases DirectiveLocation.ofText? name with
  | none => exact .failAt nofun
  | some location =>
    refine (consume_inStep (by decide)).bindSame fun found => .ite Iff.rfl (fun _ => hmore _ _ rfl) fun _ => ?_
    exact .pure rfl fun _ _ => id

private theorem readDirective_inStep (schema : Schema) (pos pos' : Pos) :
    InStepUpTo false room (DirectiveDecl.unplaced TypeRef.unplaced) (readDirective schema pos)
      (readDirective schema pos') := by
  refine (expect_inStep (by decide)).weak.bind fun _ _ _ => (readName_inStep _).weak.bindSame fun name => ?_
  refine (readOptionalArgumentDecls_inStep schema).bind fun args args' hargs => ?_
  refine (peekKeyword_inStep (by cbv)).bindSame fun repeatable => ?_
  -- the places of the directive follow, whether or not it is repeatable
  have hrest : InStepUpTo false room (DirectiveDecl.unplaced TypeRef.unplaced)
      (do
        if !(← peekKeyword "on") then
          fail (.expected "'on'" (← skipSpace))
        discard readToken
        discard (consume 0x7c)
        let locations ← readLocations []
        return { name, args, locations, repeatable, pos : DirectiveDecl })
      (do
        if !(← peekKeyword "on") then
          fail (.expected "'on'" (← skipSpace))
        discard readToken
        discard (consume 0x7c)
        let locations ← readLocations []
        return { name, args := args', locations, repeatable, pos := pos' : DirectiveDecl }) := by
    refine (peekKeyword_inStep (by cbv)).bindSame fun found => .ite Iff.rfl (fun _ => ?_) fun _ => ?_
    · exact skip fun _ => .fail_bind (by simp)
    · refine readToken_inStep.discard.bind fun _ _ _ => (consume_inStep (by decide)).discard.bind fun _ _ _ => ?_
      refine (readLocations_inStep []).bindSame fun locations => .pure ?_ fun _ _ => id
      simp only [DirectiveDecl.unplaced, hargs]
  exact .ite Iff.rfl (fun _ => readToken_inStep.discard.bind fun _ _ _ => hrest) fun _ => hrest

private theorem readTypeDecl?_inStep (schema : Schema) (keyword : String) (pos pos' : Pos) :
    (readTypeDecl? schema keyword pos = none ∧ readTypeDecl? schema keyword pos' = none) ∨
      ∃ p p', readTypeDecl? schema keyword pos = some p ∧ readTypeDecl? schema keyword pos' = some p' ∧
        ∀ room, DeclInStep room p p' := by
  unfold readTypeDecl?
  split
  · exact .inr ⟨_, _, rfl, rfl, fun _ => readSchemaDecl_inStep schema pos pos'⟩
  · exact .inr ⟨_, _, rfl, rfl, fun _ => readObject_inStep schema (fun _ => rfl) pos pos'⟩
  · exact .inr ⟨_, _, rfl, rfl, fun _ => readObject_inStep schema (fun _ => rfl) pos pos'⟩
  · exact .inr ⟨_, _, rfl, rfl, fun _ => readUnion_inStep schema pos pos'⟩
  · exact .inr ⟨_, _, rfl, rfl, fun _ => readEnum_inStep pos pos'⟩
  · exact .inr ⟨_, _, rfl, rfl, fun _ => readInput_inStep schema pos pos'⟩
  · exact .inr ⟨_, _, rfl, rfl, fun _ => readScalar_inStep schema pos pos'⟩
  · exact .inl ⟨rfl, rfl⟩

private theorem failKeyword_inStep {before : Ahead} {R : α → α → Prop} {A : α → Ahead} (strict : Bool)
    (keyword : String) (pos pos' : Pos) (found : UInt8) :
    InStep strict room before (failKeyword keyword pos found) (failKeyword keyword pos' found) R A :=
  .ite Iff.rfl (fun _ => .fail nofun) fun _ => .failAt nofun

/-- A declaration that is read with a description added. -/
private theorem described_inStep {p p' : Parser TypeDecl} (h : DeclInStep room p p') (description : Option String)
    {make : TypeDecl → Declaration}
    (hmake : ∀ decl, (make decl).unplaced TypeRef.unplaced = make (decl.unplaced TypeRef.unplaced)) :
    InStepUpTo false room (Declaration.unplaced TypeRef.unplaced)
      (do return make { (← p) with description }) (do return make { (← p') with description }) := by
  refine h.bind fun decl decl' hdecl => .pure ?_ fun _ _ => id
  have hdescribed (decl : TypeDecl) : ({ decl with description } : TypeDecl).unplaced TypeRef.unplaced =
      { decl.unplaced TypeRef.unplaced with description } := rfl
  rw [hmake, hmake, hdescribed, hdescribed, hdecl]

private theorem readExtension_inStep (schema : Schema) (description : Option String) :
    InStepUpTo false room (Declaration.unplaced TypeRef.unplaced) (readExtension schema description)
      (readExtension schema description) := by
  refine skip fun b => position_bind fun pos pos' => ?_
  refine (readToken_inStep.starting fun _ _ h => h.respaced).bindSame fun keyword => ?_
  rcases readTypeDecl?_inStep schema keyword pos pos' with ⟨hnone, hnone'⟩ | ⟨p, p', hp, hp', h⟩
  · rw [hnone, hnone']
    refine .ite Iff.rfl (fun _ => ?_) fun _ => failKeyword_inStep false keyword pos pos' b
    exact (readDirective_inStep schema pos pos').discard.bind fun _ _ _ => .failAt nofun
  · rw [hp, hp']
    exact described_inStep (h _) description fun _ => rfl

theorem readDeclaration_inStep (schema : Schema) :
    InStepUpTo true room (Declaration.unplaced TypeRef.unplaced) (readDeclaration schema) (readDeclaration schema) := by
  refine readDescription_inStep.bindSame fun description => skip fun b => position_bind fun pos pos' => ?_
  refine readToken_bind (fun _ _ h => h.respaced) (.ite Iff.rfl (fun _ => .fail_bind nofun) fun h => absurd rfl h)
    fun keyword => .ite Iff.rfl (fun _ => .fail_bind nofun) fun _ => ?_
  refine .ite Iff.rfl (fun _ => readExtension_inStep schema description) fun _ => ?_
  rcases readTypeDecl?_inStep schema keyword pos pos' with ⟨hnone, hnone'⟩ | ⟨p, p', hp, hp', h⟩
  · rw [hnone, hnone']
    refine .ite Iff.rfl (fun _ => ?_) fun _ => failKeyword_inStep false keyword pos pos' b
    refine (readDirective_inStep schema pos pos').bind fun decl decl' hdecl => .pure ?_ fun _ _ => id
    exact congrArg (fun decl : DirectiveDecl => Declaration.directive { decl with description }) hdecl
  · rw [hp, hp']
    exact described_inStep (h _) description fun _ => rfl

/-- Schema texts that differ in their layout only declare the same. -/
theorem readDeclarations_inStep (schema : Schema) :
    InStep false room Respaced (readDeclarations schema) (readDeclarations schema)
      (fun ds ds' => ds.map (Declaration.unplaced TypeRef.unplaced) = ds'.map (Declaration.unplaced TypeRef.unplaced))
      fun _ => Facing 0 := by
  refine .fix fun room' _ more more' hmore => skip fun b => .ite Iff.rfl (fun h => ?_) fun _ => ?_
  · rw [eq_of_beq h]
    exact .pure rfl fun _ _ => id
  · refine ((readDeclaration_inStep schema).starting fun _ _ h => h.respaced).step fun declaration declaration' h => ?_
    exact hmore.bind fun declarations declarations' hs => .pure (congrArg₂ List.cons h hs) fun _ _ => id

end Parser

end GraphQL
