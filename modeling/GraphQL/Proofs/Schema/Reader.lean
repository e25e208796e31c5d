import GraphQL.Proofs.Schema.Sites
import GraphQL.Proofs.Schema.Writable
import GraphQL.Proofs.Value.Reader

/-!
# The declarations of a schema text

What is read from a schema text could be written in one: names are names and literals are legible (`Schema.read?_said`).
No two fields, arguments or symbols of a declaration have the same name (`Schema.read?_distinct`), nor have two arguments
of a directive that is used (`Schema.read?_sites`). The interfaces that a declaration lists are types of the schema that
it was read against, or marked as unresolved (`Schema.read?_known`).
-/

namespace GraphQL

/-! ### Declarations with known interfaces -/

/-- The reference is just a name, which is unresolved or that of a type of the schema. -/
def TypeRef.KnownIn (schema : Schema) (type : TypeRef) : Prop :=
  type.ownName?.isSome = true ∧ (type.unresolvedPos? = none → schema.hasType type.baseName = true)

/-- The interfaces that the declaration lists are known. -/
def Declaration.KnownIn (schema : Schema) : Declaration → Prop
  | .type decl | .extension decl => ∀ interface ∈ decl.interfaces, interface.KnownIn schema
  | .directive _ => True

/-- A text for the schema can say it, where its literals are legible. -/
abbrev Detail.IsLegible (schema : Schema) (detail : Detail) : Prop :=
  detail.Said schema (fun _ => True) Value.Legible

/-- The declaration is not marked as built in. -/
def Declaration.IsDeclared : Declaration → Prop
  | .type decl | .extension decl => decl.builtin = false
  | .directive decl => decl.builtin = false

/-- What is promised of a declaration. -/
private structure Declaration.IsReadBy (schema : Schema) (d : Declaration) : Prop where
  distinct : d.Distinct
  known : d.KnownIn schema
  said : ∀ detail ∈ d.details, detail.IsLegible schema
  declared : d.IsDeclared

/-- What is promised of the declaration of a type. -/
private structure TypeDecl.IsReadBy (schema : Schema) (decl : TypeDecl) : Prop where
  distinct : decl.body.Distinct
  known : ∀ interface ∈ decl.interfaces, interface.KnownIn schema
  uses : ∀ use ∈ decl.directives, (Detail.use use).IsLegible schema
  body : ∀ detail ∈ decl.body.details decl.name, detail.IsLegible schema
  declared : decl.builtin = false

private theorem TypeDecl.IsReadBy.said {schema : Schema} {decl : TypeDecl} (h : decl.IsReadBy schema)
    (description : Option String) :
    ∀ detail ∈ ({ decl with description } : TypeDecl).details, detail.IsLegible schema :=
  TypeDecl.forall_details_iff.2 ⟨fun _ _ => trivial, h.uses, h.body⟩

section Sites

variable {use : DirectiveUse} {site : Site}

private theorem InputValue.use_mem_details {value : InputValue} (huse : use ∈ value.directives) :
    Detail.use use ∈ value.details := by
  simp [details, huse]

private theorem TypeBody.use_mem_details {body : TypeBody} (name : String) (hsite : site ∈ body.sites)
    (huse : use ∈ site.uses) : Detail.use use ∈ body.details name := by
  have hobject {body : ObjectBody} (hsite : site ∈ body.fields.flatMap FieldDef.sites) :
      Detail.use use ∈ body.details := by
    obtain ⟨field, hfield, hsite⟩ := List.mem_flatMap.1 hsite
    refine List.mem_append_right _ (List.mem_flatMap.2 ⟨field, hfield, ?_⟩)
    rcases List.mem_cons.1 hsite with rfl | hsite
    · simp [FieldDef.details, huse]
    · obtain ⟨arg, harg, rfl⟩ := List.mem_map.1 hsite
      have hmem := List.mem_flatMap.2 ⟨arg, harg, InputValue.use_mem_details huse⟩
      simp [FieldDef.details, List.mem_flatMap.1 hmem]
  cases body with
  | object body | interface body => exact List.mem_cons_of_mem _ (hobject hsite)
  | enum values =>
    obtain ⟨value, hvalue, rfl⟩ := List.mem_map.1 hsite
    refine List.mem_cons_of_mem _ (List.mem_flatMap.2 ⟨value, hvalue, ?_⟩)
    simp [EnumValue.details, show use ∈ value.directives from huse]
  | input fields =>
    obtain ⟨field, hfield, rfl⟩ := List.mem_map.1 hsite
    refine List.mem_cons_of_mem _ (List.mem_flatMap.2 ⟨field, hfield, ?_⟩)
    exact List.mem_append_right _ (InputValue.use_mem_details huse)
  | scalar _ | union _ | schema _ => cases hsite

private theorem TypeDecl.use_mem_details {decl : TypeDecl} (hsite : site ∈ decl.sites) (huse : use ∈ site.uses) :
    Detail.use use ∈ decl.details := by
  rcases List.mem_cons.1 hsite with rfl | hsite
  · simp [details, show use ∈ decl.directives from huse]
  · exact List.mem_append_right _ (TypeBody.use_mem_details _ hsite huse)

/-- A use at a site of a declaration is part of what the declaration says. -/
private theorem Declaration.use_mem_details {d : Declaration} (hsite : site ∈ d.sites) (huse : use ∈ site.uses) :
    Detail.use use ∈ d.details := by
  cases d with
  | type decl | extension decl => exact TypeDecl.use_mem_details hsite huse
  | directive decl =>
    obtain ⟨arg, harg, rfl⟩ := List.mem_map.1 hsite
    refine List.mem_cons_of_mem _ (List.mem_cons_of_mem _ (List.mem_append_right _ ?_))
    exact List.mem_flatMap.2 ⟨arg, harg, InputValue.use_mem_details huse⟩

end Sites

namespace Parser

/-! ### References and uses of directives -/

private theorem readNamedRef_gives (schema : Schema) (before : Pos) :
    Gives before (readNamedRef schema) fun type _ => type.KnownIn schema ∧ type.IsWord := by
  refine (discard_moves skipSpace_moves before).bind fun _ mid _ _ => (position_gives mid).bind fun pos mid _ _ => ?_
  refine (readName_gives _ mid).bind fun name mid _ hname => .pure ⟨?_, name, ?_, hname⟩
  · unfold namedRef
    split
    · next hknown => exact ⟨rfl, fun _ => hknown⟩
    · exact ⟨rfl, nofun⟩
  · unfold namedRef
    split <;> rfl

theorem readNamedRef_moves (schema : Schema) : Moves (readNamedRef schema) :=
  fun before => (readNamedRef_gives schema before).moves

private theorem readNonNull_gives {type : TypeRef} (h : type.Writable) (hmarked : type.isNonNull = false) (before : Pos) :
    Gives before (readNonNull type) fun type _ => type.Writable := by
  refine (skipSpace_moves before).bind fun b mid _ _ => .ite (fun _ => ?_) fun _ => .pure h
  refine (discard_moves readByte_moves mid).bind fun _ mid _ _ => (peek_moves mid).bind fun b mid _ _ => ?_
  exact .ite (fun _ => .fail_bind) fun _ => .pure (.nonNull h hmarked)

private theorem readTypeRef_gives (schema : Schema) (before : Pos) :
    Gives before (readTypeRef schema) fun type _ => type.Writable := by
  refine Gives.fix (P := fun _ type _ => TypeRef.Writable type) (fun typeRef htypeRef before => ?_) before
  refine (skipSpace_moves before).bind fun b mid _ _ => (position_gives mid).bind fun pos mid _ _ => ?_
  refine .ite (fun _ => ?_) fun _ => ?_
  · refine (discard_moves readByte_moves mid).bind fun _ mid _ _ => (htypeRef mid).bind fun item mid _ hitem => ?_
    exact (expect_moves _ mid).bind fun _ mid _ _ => readNonNull_gives (.list hitem) rfl mid
  · refine (readToken_isName mid).bind fun name mid _ hname => .ite (fun _ => .fail_bind) fun hnonempty => ?_
    have hname := hname (Bool.not_eq_true _ ▸ hnonempty)
    have href : (namedRef schema name pos).Writable ∧ (namedRef schema name pos).isNonNull = false := by
      unfold namedRef
      split
      · exact ⟨.named hname, rfl⟩
      · exact ⟨.unresolved hname, rfl⟩
    exact readNonNull_gives href.1 href.2 mid

theorem readTypeRef_moves (schema : Schema) : Moves (readTypeRef schema) :=
  fun before => (readTypeRef_gives schema before).moves

private theorem readNamedRefs_gives (schema : Schema) (separator : UInt8) (before : Pos) :
    Gives before (readNamedRefs schema separator) fun types _ =>
      ∀ type ∈ types, type.KnownIn schema ∧ type.IsWord := by
  refine (discard_moves (consume_moves separator) before).bind fun _ mid _ _ =>
    Gives.fix (P := fun _ types _ => ∀ type ∈ types, TypeRef.KnownIn schema type ∧ type.IsWord) ?_ mid
  intro more hmore before
  refine (readNamedRef_gives schema before).bind fun type mid _ htype => ?_
  refine (consume_moves separator mid).bind fun b mid _ _ => ?_
  split
  · exact (hmore mid).bind fun types _ _ htypes => .pure (List.forall_mem_cons.2 ⟨htype, htypes⟩)
  · exact .pure (List.forall_mem_singleton.2 htype)

theorem readNamedRefs_moves (schema : Schema) (separator : UInt8) : Moves (readNamedRefs schema separator) :=
  fun before => (readNamedRefs_gives schema separator before).moves

/-- What is promised of the arguments of a directive that is used. -/
private def LegibleArgs (args : List (String × Value)) : Prop :=
  (Entries.keys args).Nodup ∧ ∀ arg ∈ args, IsName arg.1 ∧ arg.2.Legible

private theorem readArguments_gives (start : Pos) (read : List (String × Value)) (before : Pos) :
    Gives before (readArguments start read) fun args _ => LegibleArgs read → LegibleArgs args := by
  refine Gives.fixWith (P := fun read _ args _ => LegibleArgs read → LegibleArgs args)
    (fun more hmore read before => ?_) read before
  refine (skipSpace_moves before).bind fun b mid _ _ => ?_
  split
  · exact (discard_moves readByte_moves mid).bind fun _ _ _ _ => .pure id
  · split
    · exact .failAt
    · refine (position_gives mid).bind fun pos mid _ _ => (readName_gives _ mid).bind fun name mid _ hname => ?_
      refine (expect_moves _ mid).bind fun _ mid _ _ => (readValue_gives mid).bind fun v mid _ hv => ?_
      split
      · exact .failAt
      · next hnew =>
        refine (hmore _ mid).mono fun args _ _ hargs hread => hargs ⟨?_, ?_⟩
        · exact Entries.nodup_keys_concat hread.1 (Bool.not_eq_true _ ▸ hnew)
        · exact List.forall_mem_append.2 ⟨hread.2, List.forall_mem_singleton.2 ⟨hname, hv.1⟩⟩

private theorem readOptionalArguments_gives (before : Pos) :
    Gives before readOptionalArguments fun args _ => LegibleArgs args := by
  have hnil : LegibleArgs [] := ⟨.nil, List.forall_mem_nil _⟩
  refine (skipSpace_moves before).bind fun b mid _ _ => ?_
  split
  · refine (position_gives mid).bind fun start mid _ _ => (discard_moves readByte_moves mid).bind fun _ mid _ _ => ?_
    exact (readArguments_gives start [] mid).mono fun args _ _ hargs => hargs hnil
  · exact .pure hnil

theorem readOptionalArguments_moves : Moves readOptionalArguments :=
  fun before => (readOptionalArguments_gives before).moves

private theorem readUses_gives (schema : Schema) (before : Pos) :
    Gives before readUses fun uses _ => ∀ use ∈ uses, (Detail.use use).IsLegible schema := by
  refine Gives.fix (P := fun _ uses _ => ∀ use ∈ uses, (Detail.use use).IsLegible schema)
    (fun more hmore before => ?_) before
  refine (skipSpace_moves before).bind fun b mid _ _ => ?_
  split
  · refine (position_gives mid).bind fun pos mid _ _ => (discard_moves readByte_moves mid).bind fun _ mid _ _ => ?_
    refine (readName_gives _ mid).bind fun name mid _ hname => ?_
    refine (readOptionalArguments_gives mid).bind fun args mid _ hargs => ?_
    exact (hmore mid).bind fun uses _ _ huses => .pure (List.forall_mem_cons.2 ⟨⟨hname, hargs.1, hargs.2⟩, huses⟩)
  · exact .pure (List.forall_mem_nil _)

theorem readUses_moves : Moves readUses := fun before => (readUses_gives {} before).moves

/-! ### Members -/

private theorem readDescription_moves : Moves readDescription := by
  intro before
  refine (skipSpace_moves before).bind fun b mid _ _ => ?_
  split
  · exact (readString_moves mid).bind fun _ _ _ _ => .pure trivial
  · exact .pure trivial

private theorem readDefault_gives (before : Pos) : Gives before readDefault fun default _ => ∀ v ∈ default, v.Legible := by
  refine (consume_moves _ before).bind fun b mid _ _ => ?_
  split
  · exact (readValue_gives mid).bind fun v _ _ hv => .pure fun w hw => Option.some.inj hw ▸ hv.1
  · exact .pure nofun

theorem readDefault_moves : Moves readDefault := fun before => (readDefault_gives before).moves

private theorem readInputValue_gives (schema : Schema) (before : Pos) :
    Gives before (readInputValue schema) fun value _ => ∀ detail ∈ value.details, detail.IsLegible schema := by
  refine (readDescription_moves before).bind fun description mid _ _ => ?_
  refine (discard_moves skipSpace_moves mid).bind fun _ mid _ _ => (position_gives mid).bind fun pos mid _ _ => ?_
  refine (readName_gives _ mid).bind fun name mid _ hname => (expect_moves _ mid).bind fun _ mid _ _ => ?_
  refine (readTypeRef_gives schema mid).bind fun type mid _ htype => (readDefault_gives mid).bind fun v mid _ hv => ?_
  exact (readUses_gives schema mid).bind fun _ _ _ huses =>
    .pure (InputValue.forall_details_iff.2 ⟨hname, htype, hv, huses⟩)

/-- What is promised of arguments that are declared. -/
private def LegibleDecls (schema : Schema) (args : List InputValue) : Prop :=
  Members.Distinct args ∧ ∀ arg ∈ args, ∀ detail ∈ arg.details, detail.IsLegible schema

private theorem readArgumentDecls_gives (schema : Schema) (start : Pos) (read : List InputValue) (before : Pos) :
    Gives before (readArgumentDecls schema start read) fun args _ =>
      LegibleDecls schema read → LegibleDecls schema args := by
  refine Gives.fixWith (P := fun read _ args _ => LegibleDecls schema read → LegibleDecls schema args)
    (fun more hmore read before => ?_) read before
  refine (skipSpace_moves before).bind fun b mid _ _ => ?_
  split
  · exact (discard_moves readByte_moves mid).bind fun _ _ _ _ => .pure id
  · split
    · exact .failAt
    · refine (readInputValue_gives schema mid).bind fun arg mid _ harg => ?_
      split
      · exact .failAt
      · next hnew =>
        refine (hmore _ mid).mono fun args _ _ hargs hread => hargs ⟨hread.1.concat (Bool.not_eq_true _ ▸ hnew), ?_⟩
        exact List.forall_mem_append.2 ⟨hread.2, List.forall_mem_singleton.2 harg⟩

private theorem readOptionalArgumentDecls_gives (schema : Schema) (before : Pos) :
    Gives before (readOptionalArgumentDecls schema) fun args _ => LegibleDecls schema args := by
  have hnil : LegibleDecls schema [] := ⟨.nil, List.forall_mem_nil _⟩
  refine (skipSpace_moves before).bind fun b mid _ _ => ?_
  split
  · refine (position_gives mid).bind fun start mid _ _ => (discard_moves readByte_moves mid).bind fun _ mid _ _ => ?_
    exact (readArgumentDecls_gives schema start [] mid).mono fun args _ _ hargs => hargs hnil
  · exact .pure hnil

private theorem readField_gives (schema : Schema) (before : Pos) :
    Gives before (readField schema) fun field _ =>
      Members.Distinct field.args ∧ ∀ detail ∈ field.details, detail.IsLegible schema := by
  refine (readDescription_moves before).bind fun description mid _ _ => ?_
  refine (discard_moves skipSpace_moves mid).bind fun _ mid _ _ => (position_gives mid).bind fun pos mid _ _ => ?_
  refine (readName_gives _ mid).bind fun name mid _ hname => ?_
  refine (readOptionalArgumentDecls_gives schema mid).bind fun args mid _ hargs => ?_
  refine (expect_moves _ mid).bind fun _ mid _ _ => (readTypeRef_gives schema mid).bind fun type mid _ htype => ?_
  exact (readUses_gives schema mid).bind fun _ _ _ huses =>
    .pure ⟨hargs.1, FieldDef.forall_details_iff.2 ⟨hname, htype, fun _ _ => trivial, hargs.2, huses⟩⟩

private theorem readSymbol_gives (schema : Schema) (before : Pos) :
    Gives before readSymbol fun value _ => ∀ detail ∈ value.details, detail.IsLegible schema := by
  refine (readDescription_moves before).bind fun description mid _ _ => ?_
  refine (discard_moves skipSpace_moves mid).bind fun _ mid _ _ => (position_gives mid).bind fun pos mid _ _ => ?_
  refine (readName_gives _ mid).bind fun name mid _ hname => ?_
  exact (readUses_gives schema mid).bind fun _ _ _ huses =>
    .pure (EnumValue.forall_details_iff.2 ⟨hname, fun _ _ => trivial, huses⟩)

section Body

variable {α : Type} [HasName α] {member : Parser α} {good : α → Prop}

private theorem readMembers_gives (hmember : ∀ before, Gives before member fun a _ => good a) (place : α → Pos)
    (duplicate : String → SyntaxCause) (owner : String) (start : Pos) (read : List α) (before : Pos) :
    Gives before (readMembers member place duplicate owner start read) fun members _ =>
      Members.Distinct read ∧ (∀ a ∈ read, good a) → Members.Distinct members ∧ ∀ a ∈ members, good a := by
  refine Gives.fixWith
    (P := fun read _ members _ =>
      Members.Distinct read ∧ (∀ a ∈ read, good a) → Members.Distinct members ∧ ∀ a ∈ members, good a)
    (fun more hmore read before => ?_) read before
  refine (consume_moves _ before).bind fun closed mid _ _ => ?_
  split
  · exact .pure id
  · refine (skipSpace_moves mid).bind fun b mid _ _ => ?_
    split
    · exact .failAt
    · refine (hmember mid).bind fun a mid _ ha => ?_
      split
      · exact .failAt
      · next hnew =>
        refine (hmore _ mid).mono fun members _ _ hmembers hread => hmembers ⟨?_, ?_⟩
        · exact hread.1.concat (Bool.not_eq_true _ ▸ hnew)
        · intro b hb
          rcases List.mem_append.1 hb with hb | hb
          · exact hread.2 b hb
          · rw [List.mem_singleton.1 hb]
            exact ha

private theorem readBody_gives (hmember : ∀ before, Gives before member fun a _ => good a) (place : α → Pos)
    (duplicate : String → SyntaxCause) (owner : String) (start : Pos) (before : Pos) :
    Gives before (readBody member place duplicate owner start) fun members _ =>
      Members.Distinct members ∧ ∀ a ∈ members, good a := by
  refine (consume_moves _ before).bind fun opened mid _ _ => ?_
  split
  · refine (readMembers_gives hmember place duplicate owner start [] mid).mono fun members _ _ hmembers => ?_
    exact hmembers ⟨.nil, fun a ha => absurd ha (by simp)⟩
  · exact .pure ⟨.nil, fun a ha => absurd ha (by simp)⟩

end Body

/-! ### Declarations -/

private theorem putRoot_types {roots more : SchemaRoots} {kind : OperationKind} {type : TypeRef}
    (h : putRoot roots kind type = some more) (htype : type.IsWord) (hroots : ∀ root ∈ roots.types, root.IsWord) :
    ∀ root ∈ more.types, root.IsWord := by
  unfold putRoot at h
  split at h
  · cases h
  · cases h
    simp only [SchemaRoots.types, List.forall_mem_append, Option.mem_toList] at hroots ⊢
    obtain ⟨⟨hquery, hmutation⟩, hsubscription⟩ := hroots
    have hroot : ∀ root, some type = some root → root.IsWord := fun _ h => Option.some.inj h ▸ htype
    cases kind with
    | query => exact ⟨⟨hroot, hmutation⟩, hsubscription⟩
    | mutation => exact ⟨⟨hquery, hroot⟩, hsubscription⟩
    | subscription => exact ⟨⟨hquery, hmutation⟩, hroot⟩

private theorem readRoots_gives (schema : Schema) (start : Pos) (read : SchemaRoots) (before : Pos) :
    Gives before (readRoots schema start read) fun roots _ =>
      (∀ root ∈ read.types, root.IsWord) → ∀ root ∈ roots.types, root.IsWord := by
  refine Gives.fixWith
    (P := fun read _ roots _ =>
      (∀ root ∈ SchemaRoots.types read, root.IsWord) → ∀ root ∈ SchemaRoots.types roots, root.IsWord)
    (fun more hmore read before => ?_) read before
  refine (skipSpace_moves before).bind fun b mid _ _ => ?_
  split
  · exact (discard_moves readByte_moves mid).bind fun _ _ _ _ => .pure id
  · split
    · exact .failAt
    · refine (position_gives mid).bind fun pos mid _ _ => (readName_moves _ mid).bind fun operation mid _ _ => ?_
      refine (expect_moves _ mid).bind fun _ mid _ _ => (readNamedRef_gives schema mid).bind fun type mid _ htype => ?_
      split
      · exact .failAt
      · split
        · exact .failAt
        · next hput => exact (hmore _ mid).mono fun roots _ _ hroots hread => hroots (putRoot_types hput htype.2 hread)

private theorem readSchemaDecl_gives (schema : Schema) (pos before : Pos) :
    Gives before (readSchemaDecl schema pos) fun decl _ => decl.IsReadBy schema := by
  refine (readUses_gives schema before).bind fun uses mid _ huses => (consume_moves _ mid).bind fun opened mid _ _ => ?_
  have hroots (roots : SchemaRoots) (h : ∀ root ∈ roots.types, root.IsWord) :
      TypeDecl.IsReadBy schema { name := "schema", directives := uses, pos, body := .schema roots } :=
    ⟨trivial, nofun, huses, List.forall_mem_cons.2 ⟨rfl, List.forall_mem_map.2 h⟩, rfl⟩
  split
  · exact (readRoots_gives schema pos _ mid).bind fun roots _ _ h => .pure (hroots roots (h nofun))
  · exact .pure (hroots {} nofun)

private theorem readInterfaces_gives (schema : Schema) (before : Pos) :
    Gives before (readInterfaces schema) fun interfaces _ =>
      ∀ interface ∈ interfaces, interface.KnownIn schema ∧ interface.IsWord := by
  refine (peekKeyword_moves _ before).bind fun found mid _ _ => ?_
  split
  · exact (discard_moves (fun before => (readToken_gives before).moves) mid).bind fun _ mid _ _ =>
      readNamedRefs_gives schema _ mid
  · exact .pure fun _ h => (by cases h)

private theorem readObject_gives (schema : Schema) (make : ObjectBody → TypeBody)
    (hmake : ∀ body, Members.Distinct body.fields → (∀ field ∈ body.fields, Members.Distinct field.args) →
      (make body).Distinct)
    (hinterfaces : ∀ (decl : TypeDecl) body, decl.body = make body → decl.interfaces = body.interfaces)
    (hdetails : ∀ name body, (make body).details name = .name name :: body.details)
    (pos before : Pos) : Gives before (readObject schema make pos) fun decl _ => decl.IsReadBy schema := by
  refine (readName_gives _ before).bind fun name mid _ hname => ?_
  refine (readInterfaces_gives schema mid).bind fun interfaces mid _ hknown => ?_
  refine (readUses_gives schema mid).bind fun directives mid _ huses => ?_
  refine (readBody_gives (readField_gives schema) _ _ _ _ mid).bind fun fields mid _ hfields =>
    .pure ⟨?_, ?_, huses, ?_, rfl⟩
  · exact hmake _ hfields.1 fun field hfield => (hfields.2 field hfield).1
  · rw [hinterfaces _ _ rfl]
    exact fun interface hinterface => (hknown interface hinterface).1
  · rw [hdetails]
    refine List.forall_mem_cons.2 ⟨hname, ObjectBody.forall_details_iff.2 ⟨?_, ?_⟩⟩
    · exact fun interface hinterface => (hknown interface hinterface).2
    · exact fun field hfield => (hfields.2 field hfield).2

private theorem readUnion_gives (schema : Schema) (pos before : Pos) :
    Gives before (readUnion schema pos) fun decl _ => decl.IsReadBy schema := by
  refine (readName_gives _ before).bind fun name mid _ hname => ?_
  refine (readUses_gives schema mid).bind fun uses mid _ huses => ?_
  have hmembers (members : List TypeRef) (h : ∀ type ∈ members, type.IsWord) :
      TypeDecl.IsReadBy schema { name, directives := uses, pos, body := .union members } :=
    ⟨trivial, nofun, huses, List.forall_mem_cons.2 ⟨hname, List.forall_mem_map.2 h⟩, rfl⟩
  refine (consume_moves _ mid).bind fun found mid _ _ => ?_
  split
  · exact (readNamedRefs_gives schema _ mid).bind fun members _ _ h =>
      .pure (hmembers members fun type htype => (h type htype).2)
  · exact .pure (hmembers [] nofun)

private theorem readEnum_gives (schema : Schema) (pos before : Pos) :
    Gives before (readEnum pos) fun decl _ => decl.IsReadBy schema := by
  refine (readName_gives _ before).bind fun name mid _ hname => ?_
  refine (readUses_gives schema mid).bind fun directives mid _ huses => ?_
  exact (readBody_gives (readSymbol_gives schema) _ _ _ _ mid).bind fun _ _ _ h =>
    .pure ⟨h.1, nofun, huses, List.forall_mem_cons.2 ⟨hname, List.forall_mem_flatMap.2 h.2⟩, rfl⟩

private theorem readInput_gives (schema : Schema) (pos before : Pos) :
    Gives before (readInput schema pos) fun decl _ => decl.IsReadBy schema := by
  refine (readName_gives _ before).bind fun name mid _ hname => ?_
  refine (readUses_gives schema mid).bind fun directives mid _ huses => ?_
  refine (readBody_gives (readInputValue_gives schema) _ _ _ _ mid).bind fun _ _ _ h =>
    .pure ⟨h.1, nofun, huses, List.forall_mem_cons.2 ⟨hname, List.forall_mem_flatMap.2 fun field hfield => ?_⟩, rfl⟩
  exact InputValue.forall_fieldDetails_iff.2 ⟨fun _ _ => trivial, h.2 field hfield⟩

private theorem readScalar_gives (schema : Schema) (pos before : Pos) :
    Gives before (readScalar schema pos) fun decl _ => decl.IsReadBy schema := by
  refine (readName_gives _ before).bind fun name mid _ hname => ?_
  exact (readUses_gives schema mid).bind fun _ _ _ huses =>
    .pure ⟨trivial, nofun, huses, List.forall_mem_cons.2 ⟨hname, List.forall_mem_singleton.2 rfl⟩, rfl⟩

private theorem readLocations_gives (read : List DirectiveLocation) (before : Pos) :
    Gives before (readLocations read) fun locations _ => read.Nodup → locations ≠ [] ∧ locations.Nodup := by
  refine Gives.fixWith (P := fun read _ locations _ => read.Nodup → locations ≠ [] ∧ locations.Nodup)
    (fun more hmore read before => ?_) read before
  refine (discard_moves skipSpace_moves before).bind fun _ mid _ _ => (position_gives mid).bind fun pos mid _ _ => ?_
  refine (readName_moves _ mid).bind fun name mid _ _ => ?_
  split
  · exact .failAt
  · next location _ =>
    -- a place that comes again is not added
    have hadded (hread : read.Nodup) :
        (if read.contains location then read else read ++ [location]) ≠ [] ∧
          (if read.contains location then read else read ++ [location]).Nodup := by
      split
      · next hmem => exact ⟨List.ne_nil_of_mem (List.contains_iff_mem.1 hmem), hread⟩
      · next hnew =>
        refine ⟨by simp, List.nodup_append.2 ⟨hread, List.nodup_singleton _, fun a ha b hb => ?_⟩⟩
        rintro rfl
        rw [List.mem_singleton] at hb
        subst hb
        exact hnew (List.contains_iff_mem.2 ha)
    refine (consume_moves _ mid).bind fun found mid _ _ => ?_
    split
    · exact (hmore _ mid).mono fun locations _ _ h hread => h (hadded hread).2
    · exact .pure hadded

private theorem readDirective_gives (schema : Schema) (pos before : Pos) :
    Gives before (readDirective schema pos) fun decl _ =>
      Members.Distinct decl.args ∧ decl.builtin = false ∧ ∀ description,
        ∀ detail ∈ ({ decl with description } : DirectiveDecl).details, detail.IsLegible schema := by
  have htoken : Moves (discard readToken) := discard_moves fun before => (readToken_gives before).moves
  refine (expect_moves _ before).bind fun _ mid _ _ => (readName_gives _ mid).bind fun name mid _ hname => ?_
  refine (readOptionalArgumentDecls_gives schema mid).bind fun args mid _ hargs => ?_
  refine (peekKeyword_moves _ mid).bind fun repeatable mid _ _ => ?_
  -- the places of the directive follow, whether or not it is repeatable
  have hrest : ∀ mid, Gives mid (do
      if !(← peekKeyword "on") then
        fail (.expected "'on'" (← skipSpace))
      discard readToken
      discard (consume 0x7c)
      let locations ← readLocations []
      return { name, args, locations, repeatable, pos : DirectiveDecl }) fun decl _ =>
        Members.Distinct decl.args ∧ decl.builtin = false ∧ ∀ description,
          ∀ detail ∈ ({ decl with description } : DirectiveDecl).details, detail.IsLegible schema := by
    intro mid
    refine (peekKeyword_moves _ mid).bind fun found mid _ _ => ?_
    split
    · exact (skipSpace_moves mid).bind fun _ _ _ _ => .fail_bind
    · refine (htoken mid).bind fun _ mid _ _ => (discard_moves (consume_moves _) mid).bind fun _ mid _ _ => ?_
      refine (readLocations_gives [] mid).bind fun locations _ _ hlocations => .pure ⟨hargs.1, rfl, fun description => ?_⟩
      exact DirectiveDecl.forall_details_iff.2 ⟨hname, hlocations .nil, fun _ _ => trivial, hargs.2⟩
  split
  · exact (htoken mid).bind fun _ mid _ _ => hrest mid
  · exact hrest mid

private theorem readTypeDecl?_gives (schema : Schema) (keyword : String) (pos : Pos) {p : Parser TypeDecl}
    (h : readTypeDecl? schema keyword pos = some p) (before : Pos) :
    Gives before p fun decl _ => decl.IsReadBy schema := by
  unfold readTypeDecl? at h
  split at h <;> cases h
  · exact readSchemaDecl_gives schema pos before
  · exact readObject_gives schema .object (fun _ hfields hargs => ⟨hfields, hargs⟩)
      (fun _ _ h => by simp [TypeDecl.interfaces, h]) (fun _ _ => rfl) pos before
  · exact readObject_gives schema .interface (fun _ hfields hargs => ⟨hfields, hargs⟩)
      (fun _ _ h => by simp [TypeDecl.interfaces, h]) (fun _ _ => rfl) pos before
  · exact readUnion_gives schema pos before
  · exact readEnum_gives schema pos before
  · exact readInput_gives schema pos before
  · exact readScalar_gives schema pos before

private theorem failKeyword_gives {α : Type} (keyword : String) (pos : Pos) (found : UInt8) (before : Pos)
    {P : α → Pos → Prop} : Gives before (failKeyword keyword pos found) P := by
  unfold failKeyword
  split
  · exact .fail
  · exact .failAt

private theorem readExtension_gives (schema : Schema) (description : Option String) (before : Pos) :
    Gives before (readExtension schema description) fun declaration _ => declaration.IsReadBy schema := by
  refine (skipSpace_moves before).bind fun b mid _ _ => (position_gives mid).bind fun pos mid _ _ => ?_
  refine (readToken_gives mid).bind fun keyword mid _ _ => ?_
  split
  · next decl hdecl =>
    exact (readTypeDecl?_gives schema keyword pos hdecl mid).bind fun _ _ _ h =>
      .pure ⟨h.distinct, h.known, h.said _, h.declared⟩
  · split
    · exact (discard_moves (fun before => (readDirective_gives schema pos before).moves) mid).bind fun _ _ _ _ => .failAt
    · exact failKeyword_gives _ _ _ _

private theorem readDeclaration_gives (schema : Schema) (before : Pos) :
    Gives before (readDeclaration schema) fun declaration _ => declaration.IsReadBy schema := by
  refine (readDescription_moves before).bind fun description mid _ _ => ?_
  refine (skipSpace_moves mid).bind fun b mid _ _ => (position_gives mid).bind fun pos mid _ _ => ?_
  refine (readToken_gives mid).bind fun keyword mid _ _ => .ite (fun _ => .fail_bind) fun _ => ?_
  refine .ite (fun _ => readExtension_gives schema description mid) fun _ => ?_
  split
  · next decl hdecl =>
    exact (readTypeDecl?_gives schema keyword pos hdecl mid).bind fun _ _ _ h =>
      .pure ⟨h.distinct, h.known, h.said _, h.declared⟩
  · split
    · exact (readDirective_gives schema pos mid).bind fun _ _ _ h =>
        .pure ⟨h.1, trivial, h.2.2 _, h.2.1⟩
    · exact failKeyword_gives _ _ _ _

private theorem readDeclarations_gives (schema : Schema) (before : Pos) :
    Gives before (readDeclarations schema) fun declarations _ => ∀ d ∈ declarations, d.IsReadBy schema := by
  refine Gives.fix (P := fun _ declarations _ => ∀ d ∈ declarations, Declaration.IsReadBy schema d)
    (fun more hmore before => ?_) before
  refine (skipSpace_moves before).bind fun b mid _ _ => ?_
  split
  · exact .pure fun d hd => absurd hd (by simp)
  · refine (readDeclaration_gives schema mid).bind fun declaration mid _ hdeclaration => ?_
    refine (hmore mid).bind fun declarations mid _ hdeclarations => .pure fun d hd => ?_
    rcases List.mem_cons.1 hd with rfl | hd
    · exact hdeclaration
    · exact hdeclarations d hd

end Parser

namespace Schema

variable {schema : Schema} {source : List UInt8} {declarations : List Declaration}

private theorem read?_gives (h : schema.read? source = .ok declarations) :
    ∀ d ∈ declarations, d.IsReadBy schema := by
  unfold Schema.read? at h
  split at h
  · next declarations' s' hok =>
    cases h
    exact (Parser.readDeclarations_gives schema _ _ _ _ rfl hok).2
  · cases h

/-- What a schema text says could be written in one. -/
theorem read?_said (h : schema.read? source = .ok declarations) :
    ∀ d ∈ declarations, d.IsDeclared ∧ ∀ detail ∈ d.details, detail.IsLegible schema :=
  fun d hd => ⟨(read?_gives h d hd).declared, (read?_gives h d hd).said⟩

/-- No two members of a declaration in a schema text have the same name. -/
theorem read?_distinct (h : schema.read? source = .ok declarations) : ∀ d ∈ declarations, d.Distinct :=
  fun d hd => (read?_gives h d hd).distinct

/-- The interfaces that are listed in a schema text are names, of types of the schema at hand or unresolved. -/
theorem read?_known (h : schema.read? source = .ok declarations) : ∀ d ∈ declarations, d.KnownIn schema :=
  fun d hd => (read?_gives h d hd).known

/-- No two arguments of a directive that is used in a schema text have the same name. -/
theorem read?_sites (h : schema.read? source = .ok declarations) : ∀ d ∈ declarations, ∀ site ∈ d.sites, site.Distinct :=
  fun d hd _ hsite _ huse => ((read?_gives h d hd).said _ (Declaration.use_mem_details hsite huse)).2.1

end Schema

end GraphQL
