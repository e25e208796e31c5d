import GraphQL.Proofs.Schema.References
import GraphQL.Proofs.Text.Place
import GraphQL.Schema.Reader

/-!
# Placeholders

A schema text is read against a schema. A name of a type in it is one of the types of that schema, or else remembers
where it stands, which is a place of its own (`Schema.read?_placed`): the parser goes through all the places of
references, and at each the name that is read stands at the position that is kept.
-/

namespace GraphQL

/-- The name in the reference is that of a type of the schema, or that of none, and then it remembers where it stands. -/
def TypeRef.ReadIn (schema : Schema) (text : List UInt8) (type : TypeRef) : Prop :=
  match type.unresolvedPos? with
  | none => schema.hasType type.baseName = true
  | some pos => schema.hasType type.baseName = false ∧ StandsAt text type.baseName pos

/-- The references were read between two positions, each at a place of its own. -/
structure TypeRef.ReadBetween (schema : Schema) (text : List UInt8) (before : Pos) (types : List TypeRef) (after : Pos) :
    Prop where
  ordered : before ≤ after
  readIn : ∀ type ∈ types, type.ReadIn schema text
  within : ∀ pos ∈ types.filterMap TypeRef.unresolvedPos?, before ≤ pos ∧ pos < after
  distinct : (types.filterMap TypeRef.unresolvedPos?).Nodup

namespace TypeRef.ReadBetween

variable {schema : Schema} {text : List UInt8} {before mid after : Pos} {type other : TypeRef}
  {types more : List TypeRef}

private theorem nil (h : before ≤ after) : ReadBetween schema text before [] after := ⟨h, nofun, nofun, .nil⟩

private theorem mono (h : ReadBetween schema text mid types after) {before' after' : Pos} (hbefore : before' ≤ mid)
    (hafter : after ≤ after') : ReadBetween schema text before' types after' where
  ordered := le_trans hbefore (le_trans h.ordered hafter)
  readIn := h.readIn
  within := fun pos hpos => ⟨le_trans hbefore (h.within pos hpos).1, lt_of_lt_of_le (h.within pos hpos).2 hafter⟩
  distinct := h.distinct

private theorem append (h : ReadBetween schema text before types mid) (h' : ReadBetween schema text mid more after) :
    ReadBetween schema text before (types ++ more) after where
  ordered := le_trans h.ordered h'.ordered
  readIn := List.forall_mem_append.2 ⟨h.readIn, h'.readIn⟩
  within := by
    rw [List.filterMap_append, List.forall_mem_append]
    exact ⟨(h.mono (le_refl _) h'.ordered).within, (h'.mono h.ordered (le_refl _)).within⟩
  distinct := by
    rw [List.filterMap_append, List.nodup_append]
    refine ⟨h.distinct, h'.distinct, fun pos hpos pos' hpos' heq => ?_⟩
    subst heq
    exact lt_irrefl _ (lt_of_lt_of_le (h.within pos hpos).2 (h'.within pos hpos').1)

private theorem perm (h : ReadBetween schema text before types after) (hperm : types.Perm more) :
    ReadBetween schema text before more after where
  ordered := h.ordered
  readIn := fun type htype => h.readIn type (hperm.mem_iff.2 htype)
  within := fun pos hpos => h.within pos ((hperm.filterMap _).mem_iff.2 hpos)
  distinct := (hperm.filterMap _).nodup_iff.1 h.distinct

/-- What stands around a reference has no place. -/
private theorem wrapped (h : ReadBetween schema text before [type] after) (hname : other.baseName = type.baseName)
    (hpos : other.unresolvedPos? = type.unresolvedPos?) : ReadBetween schema text before [other] after := by
  obtain ⟨hordered, hreadIn, hwithin, hdistinct⟩ := h
  refine ⟨hordered, List.forall_mem_singleton.2 ?_, ?_, ?_⟩
  · unfold ReadIn
    rw [hname, hpos]
    exact hreadIn type List.mem_cons_self
  · rwa [List.filterMap_cons, hpos]
  · rwa [List.filterMap_cons, hpos]

/-- A name that is read where it stands is one reference. -/
private theorem namedRef {name : String} (h : StandsAt text name before ∧ before < after) :
    ReadBetween schema text before [Parser.namedRef schema name before] after := by
  obtain ⟨hstands, hlt⟩ := h
  unfold Parser.namedRef
  split
  · next hname => exact ⟨le_of_lt hlt, List.forall_mem_singleton.2 hname, nofun, .nil⟩
  · next hname =>
    refine ⟨le_of_lt hlt, List.forall_mem_singleton.2 ⟨Bool.not_eq_true _ ▸ hname, hstands⟩, ?_, List.nodup_singleton _⟩
    exact List.forall_mem_singleton.2 ⟨le_refl _, hlt⟩

end TypeRef.ReadBetween

namespace Parser

open TypeRef

variable {text : List UInt8} {schema : Schema} {s : Scanner}

/-! ### Literals and uses of directives -/

private theorem readNumber_stays : Stays text readNumber := by
  intro s
  refine position_staysIn.bind fun pos mid _ _ => (span_stays _ mid).bind fun run mid _ _ => ?_
  refine peek_staysIn.bind fun next mid _ _ => ?_
  split
  · exact .fail
  · split
    · exact .pure trivial
    · exact .failAt

private theorem readItems_stays {value : Parser Value} (hvalue : Stays text value) (start : Pos) :
    Stays text (readItems value start) := by
  refine Stays.fix fun more hmore s => ?_
  refine (skipSpace_stays s).bind fun b mid _ _ => ?_
  split
  · exact (discard_stays readByte_stays mid).bind fun _ _ _ _ => .pure trivial
  · split
    · exact .failAt
    · exact (hvalue mid).bind fun _ mid _ _ => (hmore mid).bind fun _ _ _ _ => .pure trivial

private theorem readKey_stays (next : UInt8) : Stays text (readKey next) := by
  unfold readKey
  split
  · exact readString_stays
  · exact readName_stays _

private theorem readEntries_stays {value : Parser Value} (hvalue : Stays text value) (start : Pos)
    (read : List (String × Value)) : Stays text (readEntries value start read) := by
  refine Stays.fixWith (fun more hmore read s => ?_) read
  refine (skipSpace_stays s).bind fun b mid _ _ => position_staysIn.bind fun pos mid _ _ => ?_
  split
  · exact (discard_stays readByte_stays mid).bind fun _ _ _ _ => .pure trivial
  · split
    · exact .failAt
    · refine (readKey_stays b mid).bind fun key mid _ _ => (expect_stays _ mid).bind fun _ mid _ _ => ?_
      refine (hvalue mid).bind fun v mid _ _ => ?_
      split
      · exact .failAt
      · exact hmore _ mid

private theorem readValue_stays : Stays text readValue := by
  refine Stays.fix fun value hvalue s => ?_
  refine (skipSpace_stays s).bind fun b mid _ _ => ?_
  split
  · exact (readString_stays mid).bind fun _ _ _ _ => .pure trivial
  · split
    · refine (discard_stays readByte_stays mid).bind fun _ mid _ _ => position_staysIn.bind fun pos mid _ _ => ?_
      refine (readToken_stays mid).bind fun name mid _ _ => ?_
      split
      · exact .failAt
      · exact .pure trivial
    · split
      · refine position_staysIn.bind fun start mid _ _ => (discard_stays readByte_stays mid).bind fun _ mid _ _ => ?_
        exact (readItems_stays hvalue start mid).bind fun _ _ _ _ => .pure trivial
      · split
        · refine position_staysIn.bind fun start mid _ _ => (discard_stays readByte_stays mid).bind fun _ mid _ _ => ?_
          exact (readEntries_stays hvalue start [] mid).bind fun _ _ _ _ => .pure trivial
        · split
          · exact readNumber_stays mid
          · split
            · exact (readToken_stays mid).bind fun _ _ _ _ => .pure trivial
            · exact .fail

private theorem readArguments_stays (start : Pos) (read : List (String × Value)) :
    Stays text (readArguments start read) := by
  refine Stays.fixWith (fun more hmore read s => ?_) read
  refine (skipSpace_stays s).bind fun b mid _ _ => ?_
  split
  · exact (discard_stays readByte_stays mid).bind fun _ _ _ _ => .pure trivial
  · split
    · exact .failAt
    · refine position_staysIn.bind fun pos mid _ _ => (readName_stays _ mid).bind fun name mid _ _ => ?_
      refine (expect_stays _ mid).bind fun _ mid _ _ => (readValue_stays mid).bind fun v mid _ _ => ?_
      split
      · exact .failAt
      · exact hmore _ mid

private theorem readOptionalArguments_stays : Stays text readOptionalArguments := by
  intro s
  refine (skipSpace_stays s).bind fun b mid _ _ => ?_
  split
  · refine position_staysIn.bind fun start mid _ _ => (discard_stays readByte_stays mid).bind fun _ mid _ _ => ?_
    exact readArguments_stays start [] mid
  · exact .pure trivial

private theorem readUses_stays : Stays text readUses := by
  refine Stays.fix fun more hmore s => ?_
  refine (skipSpace_stays s).bind fun b mid _ _ => ?_
  split
  · refine position_staysIn.bind fun pos mid _ _ => (discard_stays readByte_stays mid).bind fun _ mid _ _ => ?_
    refine (readName_stays _ mid).bind fun name mid _ _ => (readOptionalArguments_stays mid).bind fun args mid _ _ => ?_
    exact (hmore mid).bind fun uses _ _ _ => .pure trivial
  · exact .pure trivial

/-! ### References -/

/-- What is promised of the references that a parser reads. -/
private abbrev Refers {α : Type} (schema : Schema) (text : List UInt8) (p : Parser α) (types : α → List TypeRef) : Prop :=
  ∀ s, StaysIn text s p fun a s' => ReadBetween schema text s.pos (types a) s'.pos

section Refers

variable {α β : Type} {p : Parser α} {f : α → Parser β} {types : β → List TypeRef}

private theorem Stays.refers (hp : Stays text p) : Refers schema text p fun _ => [] := fun s =>
  (hp s).mono fun _ _ hle _ => .nil hle

/-- What comes before the references. -/
private theorem Refers.skip (hp : Stays text p) (hf : ∀ a, Refers schema text (f a) types) :
    Refers schema text (p >>= f) types := fun s =>
  (hp s).bind fun a mid hmid _ => (hf a mid).mono fun _ _ _ h => h.mono hmid (le_refl _)

/-- What comes after references. -/
private theorem rest {read : List TypeRef} {before : Pos} {Q : β → Scanner → Prop}
    (h : ReadBetween schema text before read s.pos) (hp : Stays text p)
    (hf : ∀ a mid, ReadBetween schema text before read mid.pos → StaysIn text mid (f a) Q) :
    StaysIn text s (p >>= f) Q :=
  (hp s).bind fun a mid hmid _ => hf a mid (h.mono (le_refl _) hmid)

end Refers

/-- The position of a name is taken where it is read. -/
private theorem readNamedRef_refers : Refers schema text (readNamedRef schema) fun type => [type] := by
  intro s
  refine (discard_staysIn skipSpace_staysIn).bind fun _ mid hle hmid => ?_
  refine position_staysIn.bind fun pos mid' _ hpos => ?_
  obtain ⟨rfl, rfl⟩ := hpos
  refine (readName_staysIn _).bind fun name mid _ hname => .pure ?_
  rw [hmid, s.skipSpace_skipSpace, ← hmid] at hname
  exact (ReadBetween.namedRef hname).mono hle (le_refl _)

private theorem readNonNull_staysIn {before : Pos} {type : TypeRef}
    (h : ReadBetween schema text before [type] s.pos) :
    StaysIn text s (readNonNull type) fun type s' => ReadBetween schema text before [type] s'.pos := by
  refine rest h skipSpace_stays fun b mid h => ?_
  split
  · refine rest h (discard_stays readByte_stays) fun _ mid h => rest h peek_stays fun b mid h => ?_
    split
    · exact .fail_bind
    · exact .pure (h.wrapped rfl rfl)
  · exact .pure h

private theorem readTypeRef_refers : Refers schema text (readTypeRef schema) fun type => [type] := by
  refine StaysIn.fix fun typeRef htypeRef => Refers.skip skipSpace_stays fun b s => ?_
  refine position_staysIn.bind fun pos mid _ hpos => ?_
  obtain ⟨rfl, rfl⟩ := hpos
  split
  · refine Refers.skip (discard_stays readByte_stays) (fun _ s => ?_) mid
    refine (htypeRef s).bind fun item mid _ hitem => rest hitem (expect_stays _) fun _ mid hitem => ?_
    exact readNonNull_staysIn (hitem.wrapped rfl rfl)
  · refine readToken_staysIn.bind fun name last _ hname => ?_
    split
    · exact .fail_bind
    · next hnonempty => exact readNonNull_staysIn (ReadBetween.namedRef (hname (Bool.not_eq_true _ ▸ hnonempty)))

private theorem readNamedRefs_refers (separator : UInt8) :
    Refers schema text (readNamedRefs schema separator) fun types => types := by
  refine Refers.skip (discard_stays (consume_stays separator)) fun _ => StaysIn.fix fun more hmore s => ?_
  refine (readNamedRef_refers s).bind fun type mid _ htype => rest htype (consume_stays separator) fun b mid htype => ?_
  split
  · exact (hmore mid).bind fun types last _ htypes => .pure (htype.append htypes)
  · exact .pure htype

/-! ### Members -/

private theorem readDescription_stays : Stays text readDescription := by
  intro s
  refine (skipSpace_stays s).bind fun b mid _ _ => ?_
  split
  · exact (readString_stays mid).bind fun _ _ _ _ => .pure trivial
  · exact .pure trivial

private theorem readDefault_stays : Stays text readDefault := by
  intro s
  refine (consume_stays _ s).bind fun b mid _ _ => ?_
  split
  · exact (readValue_stays mid).bind fun _ _ _ _ => .pure trivial
  · exact .pure trivial

private theorem readInputValue_refers : Refers schema text (readInputValue schema) fun value => [value.type] := by
  refine Refers.skip readDescription_stays fun description => Refers.skip (discard_stays skipSpace_stays) fun _ => ?_
  refine Refers.skip position_stays fun pos => Refers.skip (readName_stays _) fun name => ?_
  refine Refers.skip (expect_stays _) fun _ s => (readTypeRef_refers s).bind fun type mid _ htype => ?_
  exact rest htype readDefault_stays fun v mid htype => rest htype readUses_stays fun _ mid htype => .pure htype

private theorem readArgumentDecls_staysIn {before : Pos} (start : Pos) (read : List InputValue) (s : Scanner) :
    StaysIn text s (readArgumentDecls schema start read) fun args s' =>
      ReadBetween schema text before (read.map InputValue.type) s.pos →
        ReadBetween schema text before (args.map InputValue.type) s'.pos := by
  refine StaysIn.fixWith
    (P := fun read s (args : List InputValue) s' =>
      ReadBetween schema text before (read.map InputValue.type) s.pos →
        ReadBetween schema text before (args.map InputValue.type) s'.pos)
    (fun more hmore read s => ?_) read s
  refine (skipSpace_stays s).bind fun b mid hmid _ => ?_
  split
  · exact (discard_stays readByte_stays mid).bind fun _ last hlast _ =>
      .pure fun hread => hread.mono (le_refl _) (le_trans hmid hlast)
  · split
    · exact .failAt
    · refine (readInputValue_refers mid).bind fun arg mid' _ harg => ?_
      split
      · exact .failAt
      · refine (hmore _ mid').mono fun args last _ hargs hread => hargs ?_
        rw [List.map_append]
        exact (hread.mono (le_refl _) hmid).append harg

private theorem readOptionalArgumentDecls_refers :
    Refers schema text (readOptionalArgumentDecls schema) fun args => args.map InputValue.type := by
  refine Refers.skip skipSpace_stays fun b => ?_
  split
  · refine Refers.skip position_stays fun start => Refers.skip (discard_stays readByte_stays) fun _ s => ?_
    exact (readArgumentDecls_staysIn start [] s).mono fun args last _ hargs => hargs (.nil (le_refl _))
  · exact fun s => .pure (.nil (le_refl _))

private theorem readField_refers :
    Refers schema text (readField schema) fun field => field.type :: field.args.map InputValue.type := by
  refine Refers.skip readDescription_stays fun description => Refers.skip (discard_stays skipSpace_stays) fun _ => ?_
  refine Refers.skip position_stays fun pos => Refers.skip (readName_stays _) fun name s => ?_
  refine (readOptionalArgumentDecls_refers s).bind fun args mid _ hargs => ?_
  refine rest hargs (expect_stays _) fun _ mid hargs => (readTypeRef_refers mid).bind fun type mid _ htype => ?_
  refine rest (hargs.append htype) readUses_stays fun _ mid h => .pure (h.perm ?_)
  exact List.perm_append_singleton type _

private theorem readSymbol_stays : Stays text readSymbol := by
  intro s
  refine (readDescription_stays s).bind fun description mid _ _ => ?_
  refine (discard_stays skipSpace_stays mid).bind fun _ mid _ _ => position_staysIn.bind fun pos mid _ _ => ?_
  exact (readName_stays _ mid).bind fun name mid _ _ => (readUses_stays mid).bind fun _ _ _ _ => .pure trivial

section Body

variable {α : Type} [HasName α] {member : Parser α} {types : α → List TypeRef}

private theorem readMembers_staysIn (hmember : Refers schema text member types) (place : α → Pos)
    (duplicate : String → SyntaxCause) (owner : String) {before : Pos} (start : Pos) (read : List α) (s : Scanner) :
    StaysIn text s (readMembers member place duplicate owner start read) fun members s' =>
      ReadBetween schema text before (read.flatMap types) s.pos →
        ReadBetween schema text before (members.flatMap types) s'.pos := by
  refine StaysIn.fixWith
    (P := fun read s (members : List α) s' =>
      ReadBetween schema text before (read.flatMap types) s.pos →
        ReadBetween schema text before (members.flatMap types) s'.pos)
    (fun more hmore read s => ?_) read s
  refine (consume_stays _ s).bind fun closed mid hmid _ => ?_
  split
  · exact .pure fun hread => hread.mono (le_refl _) hmid
  · refine (skipSpace_stays mid).bind fun b mid' hmid' _ => ?_
    split
    · exact .failAt
    · refine (hmember mid').bind fun a last _ ha => ?_
      split
      · exact .failAt
      · refine (hmore _ last).mono fun members _ _ hmembers hread => hmembers ?_
        rw [List.flatMap_append, List.flatMap_singleton]
        exact (hread.mono (le_refl _) (le_trans hmid hmid')).append ha

private theorem readBody_refers (hmember : Refers schema text member types) (place : α → Pos)
    (duplicate : String → SyntaxCause) (owner : String) (start : Pos) :
    Refers schema text (readBody member place duplicate owner start) fun members => members.flatMap types := by
  refine Refers.skip (consume_stays _) fun opened => ?_
  split
  · exact fun s => (readMembers_staysIn hmember place duplicate owner start [] s).mono fun members _ _ hmembers =>
      hmembers (.nil (le_refl _))
  · exact fun s => .pure (.nil (le_refl _))

end Body

/-! ### Declarations -/

private theorem perm_putRoot {roots more : SchemaRoots} {kind : OperationKind} {type : TypeRef}
    (h : putRoot roots kind type = some more) :
    ((TypeBody.schema roots).references ++ [type]).Perm (TypeBody.schema more).references := by
  unfold putRoot at h
  split at h
  · cases h
  · next hnone =>
    cases h
    obtain ⟨query, mutation, subscription⟩ := roots
    cases kind with
    | query =>
      obtain rfl : query = none := by simpa [SchemaRoots.root?] using hnone
      exact List.perm_append_singleton type _
    | mutation =>
      obtain rfl : mutation = none := by simpa [SchemaRoots.root?] using hnone
      simp only [TypeBody.references, Option.toList_none, Option.toList_some, List.append_assoc, List.nil_append]
      exact (List.perm_append_singleton type _).append_left _
    | subscription =>
      obtain rfl : subscription = none := by simpa [SchemaRoots.root?] using hnone
      simp [TypeBody.references]

private theorem readRoots_staysIn {before : Pos} (start : Pos) (read : SchemaRoots) (s : Scanner) :
    StaysIn text s (readRoots schema start read) fun roots s' =>
      ReadBetween schema text before (TypeBody.schema read).references s.pos →
        ReadBetween schema text before (TypeBody.schema roots).references s'.pos := by
  refine StaysIn.fixWith
    (P := fun read s roots s' =>
      ReadBetween schema text before (TypeBody.schema read).references s.pos →
        ReadBetween schema text before (TypeBody.schema roots).references s'.pos)
    (fun more hmore read s => ?_) read s
  refine (skipSpace_stays s).bind fun b mid hmid _ => ?_
  split
  · exact (discard_stays readByte_stays mid).bind fun _ last hlast _ =>
      .pure fun hread => hread.mono (le_refl _) (le_trans hmid hlast)
  · split
    · exact .failAt
    · refine position_staysIn.bind fun pos mid₁ hmid₁ _ => (readName_stays _ mid₁).bind fun operation mid₂ hmid₂ _ => ?_
      refine (expect_stays _ mid₂).bind fun _ mid₃ hmid₃ _ => (readNamedRef_refers mid₃).bind fun type last _ htype => ?_
      split
      · exact .failAt
      · split
        · exact .failAt
        · next roots hroots =>
          refine (hmore _ last).mono fun _ _ _ hmore hread => hmore ?_
          have hreached : s.pos ≤ mid₃.pos := le_trans hmid (le_trans hmid₁ (le_trans hmid₂ hmid₃))
          exact ((hread.mono (le_refl _) hreached).append htype).perm (perm_putRoot hroots)

private theorem readSchemaDecl_refers (pos : Pos) :
    Refers schema text (readSchemaDecl schema pos) fun decl => decl.body.references := by
  refine Refers.skip readUses_stays fun directives => Refers.skip (consume_stays _) fun opened s => ?_
  split
  · exact (readRoots_staysIn pos _ s).bind fun _ _ _ hroots => .pure (hroots (.nil (le_refl _)))
  · exact .pure (.nil (le_refl _))

private theorem readInterfaces_refers : Refers schema text (readInterfaces schema) fun interfaces => interfaces := by
  refine Refers.skip (peekKeyword_stays _) fun found => ?_
  split
  · exact Refers.skip (discard_stays readToken_stays) fun _ => readNamedRefs_refers _
  · exact fun s => .pure (.nil (le_refl _))

private theorem readObject_refers (make : ObjectBody → TypeBody)
    (hmake : ∀ body, (make body).references = (TypeBody.object body).references) (pos : Pos) :
    Refers schema text (readObject schema make pos) fun decl => decl.body.references := by
  refine Refers.skip (readName_stays _) fun name s => ?_
  refine (readInterfaces_refers s).bind fun interfaces mid _ hinterfaces => ?_
  refine rest hinterfaces readUses_stays fun directives mid hinterfaces => ?_
  refine (readBody_refers readField_refers _ _ _ _ mid).bind fun fields mid _ hfields => .pure ?_
  show ReadBetween schema text s.pos (make { interfaces, fields }).references mid.pos
  rw [hmake]
  exact hinterfaces.append hfields

private theorem readUnion_refers (pos : Pos) :
    Refers schema text (readUnion schema pos) fun decl => decl.body.references := by
  refine Refers.skip (readName_stays _) fun name => Refers.skip readUses_stays fun directives => ?_
  refine Refers.skip (consume_stays _) fun found s => ?_
  split
  · exact (readNamedRefs_refers _ s).bind fun _ _ _ hmembers => .pure hmembers
  · exact .pure (.nil (le_refl _))

private theorem readEnum_refers (pos : Pos) : Refers schema text (readEnum pos) fun decl => decl.body.references := by
  refine Refers.skip (readName_stays _) fun name => Refers.skip readUses_stays fun directives s => ?_
  have hsymbol : Refers schema text readSymbol fun _ => [] := readSymbol_stays.refers
  exact (readBody_refers hsymbol _ _ _ _ s).bind fun _ _ hle _ => .pure (.nil hle)

private theorem readInput_refers (pos : Pos) :
    Refers schema text (readInput schema pos) fun decl => decl.body.references := by
  refine Refers.skip (readName_stays _) fun name => Refers.skip readUses_stays fun directives s => ?_
  refine (readBody_refers readInputValue_refers _ _ _ _ s).bind fun fields mid _ hfields => .pure ?_
  show ReadBetween schema text s.pos (fields.map InputValue.type) mid.pos
  rwa [List.map_eq_flatMap]

private theorem readScalar_refers (pos : Pos) :
    Refers schema text (readScalar schema pos) fun decl => decl.body.references := by
  refine Refers.skip (readName_stays _) fun name s => ?_
  exact (readUses_stays s).bind fun _ _ hle _ => .pure (.nil hle)

private theorem readLocations_stays (read : List DirectiveLocation) : Stays text (readLocations read) := by
  refine Stays.fixWith (fun more hmore read s => ?_) read
  refine (discard_stays skipSpace_stays s).bind fun _ mid _ _ => position_staysIn.bind fun pos mid _ _ => ?_
  refine (readName_stays _ mid).bind fun name mid _ _ => ?_
  split
  · exact .failAt
  · refine (consume_stays _ mid).bind fun found mid _ _ => ?_
    split
    · exact hmore _ mid
    · exact .pure trivial

private theorem readDirective_refers (pos : Pos) :
    Refers schema text (readDirective schema pos) fun decl => decl.args.map InputValue.type := by
  refine Refers.skip (expect_stays _) fun _ => Refers.skip (readName_stays _) fun name s => ?_
  refine (readOptionalArgumentDecls_refers s).bind fun args mid _ hargs => ?_
  refine rest hargs (peekKeyword_stays _) fun repeatable mid hargs => ?_
  -- the places of the directive follow, whether or not it is repeatable
  have hrest (mid : Scanner) (hargs : ReadBetween schema text s.pos (args.map InputValue.type) mid.pos) :
      StaysIn text mid (do
        if !(← peekKeyword "on") then
          fail (.expected "'on'" (← skipSpace))
        discard readToken
        discard (consume 0x7c)
        let locations ← readLocations []
        return { name, args, locations, repeatable, pos : DirectiveDecl }) fun decl s' =>
          ReadBetween schema text s.pos (decl.args.map InputValue.type) s'.pos := by
    refine rest hargs (peekKeyword_stays _) fun found mid hargs => ?_
    split
    · exact (skipSpace_stays mid).bind fun _ _ _ _ => .fail_bind
    · refine rest hargs (discard_stays readToken_stays) fun _ mid hargs => ?_
      refine rest hargs (discard_stays (consume_stays _)) fun _ mid hargs => ?_
      exact rest hargs (readLocations_stays []) fun _ _ hargs => .pure hargs
  split
  · exact rest hargs (discard_stays readToken_stays) fun _ mid hargs => hrest mid hargs
  · exact hrest mid hargs

private theorem readTypeDecl?_refers (keyword : String) (pos : Pos) {p : Parser TypeDecl}
    (h : readTypeDecl? schema keyword pos = some p) : Refers schema text p fun decl => decl.body.references := by
  unfold readTypeDecl? at h
  split at h <;> cases h
  · exact readSchemaDecl_refers pos
  · exact readObject_refers .object (fun _ => rfl) pos
  · exact readObject_refers .interface (fun _ => rfl) pos
  · exact readUnion_refers pos
  · exact readEnum_refers pos
  · exact readInput_refers pos
  · exact readScalar_refers pos

private theorem failKeyword_staysIn {α : Type} {keyword : String} {pos : Pos} {found : UInt8}
    {P : α → Scanner → Prop} : StaysIn text s (failKeyword keyword pos found) P := by
  unfold failKeyword
  split
  · exact .fail
  · exact .failAt

/-- The references of a declaration at the top of a text. -/
private abbrev declared (declaration : Declaration) : List TypeRef := declaration.uses.map TypeUse.type

private theorem readExtension_refers (description : Option String) :
    Refers schema text (readExtension schema description) declared := by
  refine Refers.skip skipSpace_stays fun b => Refers.skip position_stays fun pos => ?_
  refine Refers.skip readToken_stays fun keyword s => ?_
  split
  · next decl hdecl =>
    refine (readTypeDecl?_refers keyword pos hdecl s).bind fun decl mid _ h => .pure ?_
    show ReadBetween schema text s.pos (decl.body.uses.map TypeUse.type) mid.pos
    rwa [TypeBody.uses_references]
  · have hdirective : Stays text (readDirective schema pos) := fun s => (readDirective_refers pos s).stays
    split
    · exact (discard_stays hdirective s).bind fun _ _ _ _ => .failAt
    · exact failKeyword_staysIn

private theorem readDeclaration_refers : Refers schema text (readDeclaration schema) declared := by
  refine Refers.skip readDescription_stays fun description => Refers.skip skipSpace_stays fun b => ?_
  refine Refers.skip position_stays fun pos => Refers.skip readToken_stays fun keyword s => ?_
  refine .ite (fun _ => .fail_bind) fun _ => .ite (fun _ => readExtension_refers description s) fun _ => ?_
  split
  · next decl hdecl =>
    refine (readTypeDecl?_refers keyword pos hdecl s).bind fun decl mid _ h => .pure ?_
    show ReadBetween schema text s.pos (decl.body.uses.map TypeUse.type) mid.pos
    rwa [TypeBody.uses_references]
  · split
    · refine (readDirective_refers pos s).bind fun decl mid _ h => .pure ?_
      show ReadBetween schema text s.pos ((decl.args.map InputValue.use).map TypeUse.type) mid.pos
      rwa [List.map_map]
    · exact failKeyword_staysIn

private theorem readDeclarations_refers :
    Refers schema text (readDeclarations schema) fun declarations => declarations.flatMap declared := by
  refine StaysIn.fix fun more hmore => Refers.skip skipSpace_stays fun b => ?_
  split
  · exact fun s => .pure (.nil (le_refl _))
  · intro s
    refine (readDeclaration_refers s).bind fun declaration mid _ hdeclaration => ?_
    exact (hmore mid).bind fun declarations mid _ hdeclarations => .pure (hdeclaration.append hdeclarations)

end Parser

/-- Each name of a type in a schema text is that of a type of the schema at hand, or stands where it is said to. No two
are said to stand at the same place. -/
theorem Schema.read?_placed {schema : Schema} {source : List UInt8} {declarations : List Declaration}
    (h : schema.read? source = .ok declarations) :
    (∀ d ∈ declarations, ∀ use ∈ d.uses, use.type.ReadIn schema (Scanner.ofBytes source).rest) ∧
      ((declarations.flatMap Declaration.uses).filterMap (·.type.unresolvedPos?)).Nodup := by
  unfold Schema.read? at h
  split at h
  · next declarations' s' hok =>
    cases h
    obtain ⟨-, -, hread⟩ := Parser.readDeclarations_refers _ (Scanner.in_ofBytes source) _ _ hok
    refine ⟨fun d hd use huse => hread.readIn _ ?_, ?_⟩
    · exact List.mem_flatMap.2 ⟨d, hd, List.mem_map_of_mem huse⟩
    · have hdistinct : ((declarations.flatMap fun d => d.uses.map TypeUse.type).filterMap
          TypeRef.unresolvedPos?).Nodup := hread.distinct
      rwa [← List.map_flatMap, List.filterMap_map] at hdistinct
  · cases h

end GraphQL
