import GraphQL.Proofs.Schema.Interfaces
import GraphQL.Proofs.Schema.Kept
import GraphQL.Proofs.Schema.Roundtrip
import GraphQL.Proofs.Schema.Unplaced

/-!
# Texts that are loaded again

If a text of a loaded schema keeps all that it says, it is loaded again: what is read from it is accepted, and gives the
schema back but for the places of its declarations and the order of its types and directives
(`Schema.LoadedOn.reload`).
-/

namespace GraphQL

theorem TypeRef.resolved_comp_seenIn (schema : Schema) : TypeRef.resolved ∘ TypeRef.seenIn schema = TypeRef.resolved := by
  have hname (name : String) : (Parser.namedRef schema name .start).resolved = .named name := by
    unfold Parser.namedRef
    split <;> rfl
  funext type
  induction type with
  | named name | unresolved name _ => exact hname name
  | list _ ih => exact congrArg TypeRef.list ih
  | nonNull _ ih => exact congrArg TypeRef.nonNull ih

theorem Declaration.unplaced_unplaced (f g : TypeRef → TypeRef) (d : Declaration) :
    (d.unplaced f).unplaced g = d.unplaced (g ∘ f) := by
  cases d with
  | type decl => exact congrArg Declaration.type (decl.unplaced_unplaced f g)
  | directive decl => exact congrArg Declaration.directive (decl.unplaced_unplaced f g)
  | extension decl => exact congrArg Declaration.extension (decl.unplaced_unplaced f g)

namespace Schema

variable {schema base next : Schema}

/-! ### What a text declares -/

/-- The declarations that a text of the schema has, in the order of the text. -/
def written (schema : Schema) : List Declaration :=
  schema.declaration.toList.map .type ++ (schema.textDirectives {}).map .directive ++ (schema.textTypes {}).map .type

theorem text_eq_lines : schema.text {} = SchemaText.join "\n" (schema.written.map (Declaration.lines {})) := by
  unfold written
  simp only [List.map_append, List.map_map]
  rfl

private theorem mem_textTypes {type : TypeDecl} : type ∈ schema.textTypes {} ↔ type ∈ schema.types ∧ type.builtin = false := by
  unfold textTypes
  rw [List.mem_mergeSort, List.mem_filter]
  simp

private theorem mem_textDirectives {decl : DirectiveDecl} :
    decl ∈ schema.textDirectives {} ↔ decl ∈ schema.directives ∧ decl.builtin = false := by
  unfold textDirectives
  rw [List.mem_mergeSort, List.mem_filter]
  simp

theorem forall_written_iff {P : Declaration → Prop} :
    (∀ d ∈ schema.written, P d) ↔
      (∀ type ∈ schema.declaration, P (.type type)) ∧
        (∀ decl ∈ schema.directives, decl.builtin = false → P (.directive decl)) ∧
          ∀ type ∈ schema.types, type.builtin = false → P (.type type) := by
  unfold written
  simp only [List.forall_mem_append, List.forall_mem_map, Option.mem_toList, Option.mem_def, mem_textTypes,
    mem_textDirectives, and_imp, and_assoc]

/-- The schema is as it is left when declarations that are read against the base are accepted. -/
structure LoadedOn (schema base : Schema) : Prop where
  declared : schema.DeclaredOn base
  valid : schema.Valid
  closed : schema.Closed
  orderly : schema.Orderly
  complete : ∀ detail ∈ schema.details, detail.IsComplete schema

/-- A text in the layout keeps all that it shows. -/
def IsKept (layout : SchemaLayout) (schema : Schema) : Prop :=
  ∀ d ∈ schema.written, ∀ detail ∈ d.details, layout.Shows detail → detail.IsKeptBy schema

/-- A text in full keeps all that is not built in. -/
private theorem IsKept.all (h : schema.IsKept {}) : ∀ d ∈ schema.written, ∀ detail ∈ d.details, detail.IsKeptBy schema :=
  fun d hd detail hdetail => h d hd detail hdetail (by cases detail <;> trivial)

namespace LoadedOn

private theorem said (h : schema.LoadedOn base) (hbase : base.Basic) (hkept : schema.IsKept {}) :
    ∀ detail ∈ schema.details,
      detail.IsBasic ∨ detail.IsLegible base ∧ detail.IsKeptBy schema ∧ detail.IsComplete schema := by
  obtain ⟨hdeclaration, hdirectives, htypes⟩ := forall_written_iff.1 hkept.all
  refine h.declared.basic_or hbase (fun type htype hbuiltin detail hdetail => ?_) fun decl hdecl hbuiltin detail hdetail => ?_
  · refine ⟨h.declared.said type htype hbuiltin detail hdetail, ?_, h.complete detail ?_⟩
    · rcases List.mem_append.1 htype with htype | htype
      · exact htypes type htype hbuiltin detail hdetail
      · exact hdeclaration type (Option.mem_toList.1 htype) detail hdetail
    · exact details_subset_of_type htype hdetail
  · exact ⟨h.declared.saidDirectives decl hdecl hbuiltin detail hdetail, hdirectives decl hdecl hbuiltin detail hdetail,
      h.complete detail (details_subset_of_directive hdecl hdetail)⟩

/-- What is written can be read. -/
private theorem readable (h : schema.LoadedOn base) (hkept : schema.IsKept {}) : ∀ d ∈ schema.written, d.Readable base := by
  have hpasses := Schema.forall_details_iff.1 (passes_of_faults h.valid.faults)
  have hsaid {detail : Detail} (hlegible : detail.IsLegible base) (hkept : detail.IsKeptBy schema)
      (hpasses : schema.Passes detail) : detail.Said base SchemaText.IsKept Value.Readable := by
    cases detail with
    | description text => exact hkept
    | default type v => exact ⟨hlegible, ReadsBack.reread hkept⟩
    | use use =>
      refine ⟨hlegible.1, hlegible.2.1, fun entry hentry => ⟨(hlegible.2.2 entry hentry).1, (hlegible.2.2 entry hentry).2, ?_⟩⟩
      obtain ⟨location, earlier, huse⟩ := hpasses
      obtain ⟨decl, hdecl, -, -, hknown, -⟩ := useFaults_eq_nil_iff.1 huse
      obtain ⟨arg, harg⟩ := Option.isSome_iff_exists.1
        (Members.get?_isSome.trans (hknown entry.1 (List.mem_map_of_mem hentry)))
      have hargument : schema.argument? use.name entry.1 = some arg.type := by
        rw [argument?, hdecl, Option.bind_some, harg, Option.map_some]
      exact (show schema.ReadsBack arg.type entry.2 from hkept entry hentry arg.type hargument).reread
    | name _ | title _ | scalar _ _ | type _ | word _ | places _ => exact hlegible
  obtain ⟨hdeclaration, hdirectives, htypes⟩ := forall_written_iff.1 hkept.all
  refine forall_written_iff.2 ⟨fun type htype => ?_, fun decl hdecl hbuiltin => ?_, fun type htype hbuiltin => ?_⟩
  · have hmem : type ∈ schema.types ++ schema.declaration.toList := List.mem_append_right _ (Option.mem_toList.2 htype)
    have hbuiltin := h.declared.declaration type htype
    refine ⟨fun detail hdetail => ?_, ?_, hbuiltin⟩
    · exact hsaid (h.declared.said type hmem hbuiltin detail hdetail) (hdeclaration type htype detail hdetail)
        (hpasses.1 type hmem detail hdetail)
    · obtain ⟨roots, hroots⟩ := h.orderly.declaration type htype
      rw [hroots]
      trivial
  · refine ⟨fun detail hdetail => ?_, h.valid.distinct.directives decl hdecl, hbuiltin⟩
    exact hsaid (h.declared.saidDirectives decl hdecl hbuiltin detail hdetail) (hdirectives decl hdecl hbuiltin detail hdetail)
      (hpasses.2 decl hdecl detail hdetail)
  · have hmem : type ∈ schema.types ++ schema.declaration.toList := List.mem_append_left _ htype
    refine ⟨fun detail hdetail => ?_, h.valid.distinct.types type htype, hbuiltin⟩
    exact hsaid (h.declared.said type hmem hbuiltin detail hdetail) (htypes type htype hbuiltin detail hdetail)
      (hpasses.1 type hmem detail hdetail)

end LoadedOn

/-! ### What is read -/

/-- What is built in, followed by what a text of the schema reads as. -/
private def rebuilt (schema base : Schema) : Schema where
  types := base.types ++ (schema.textTypes {}).map Rewriting.readBack.type
  directives := base.directives ++ (schema.textDirectives {}).map Rewriting.readBack.directive
  declaration := schema.declaration.map Rewriting.readBack.type

private theorem Shuffled.orderly {other : Schema} (h : schema.Shuffled other) (horderly : schema.Orderly) : other.Orderly where
  types := horderly.types.perm h.types
  directives := horderly.directives.perm h.directives
  kinds := fun type htype => horderly.kinds type (h.types.mem_iff.2 htype)
  declaration := fun type htype => horderly.declaration type (h.declaration ▸ htype)

private theorem rebuilt_shuffled (h : schema.DeclaredOn base) (hbase : base.Basic) :
    schema.readBack.Shuffled (rebuilt schema base) := by
  obtain ⟨hbasicTypes, hbasicDirectives⟩ := Schema.forall_details_iff.1 hbase.details
  have htypes : base.types.map Rewriting.readBack.type = base.types :=
    map_eq_self_iff.2 fun type htype => Rewriting.type_eq_self fun detail hdetail =>
      (hbasicTypes type (List.mem_append_left _ htype) detail hdetail).readBack
  have hdirectives : base.directives.map Rewriting.readBack.directive = base.directives :=
    map_eq_self_iff.2 fun decl hdecl => Rewriting.directive_eq_self fun detail hdetail =>
      (hbasicDirectives decl hdecl detail hdetail).readBack
  refine ⟨?_, ?_, rfl⟩
  · have hsplit : schema.types.Perm (base.types ++ schema.textTypes {}) := by
      refine (List.filter_append_perm TypeDecl.builtin schema.types).symm.trans ?_
      rw [h.types]
      exact (List.mergeSort_perm _ _).symm.append_left _
    refine (hsplit.map Rewriting.readBack.type).trans ?_
    rw [List.map_append, htypes]
    exact .refl _
  · have hsplit : schema.directives.Perm (base.directives ++ schema.textDirectives {}) := by
      refine (List.filter_append_perm DirectiveDecl.builtin schema.directives).symm.trans ?_
      rw [h.directives]
      exact (List.mergeSort_perm _ _).symm.append_left _
    refine (hsplit.map Rewriting.readBack.directive).trans ?_
    rw [List.map_append, hdirectives]
    exact .refl _

/-- What reads as the declarations of a text is put in, and makes up the schema that is rebuilt. -/
private theorem assemble_read (h : schema.LoadedOn base) (hbase : base.Basic) {read : List Declaration}
    (hread : read.map (Declaration.unplaced TypeRef.unplaced) =
      (schema.written.map Rewriting.readBack.declaration).map (Declaration.unplaced (TypeRef.seenIn base))) :
    (base.assemble read).2 = [] ∧
      (base.assemble read).1.unplaced TypeRef.resolved = (rebuilt schema base).unplaced TypeRef.resolved := by
  have hplain : read.map (Declaration.unplaced TypeRef.resolved) =
      (schema.written.map Rewriting.readBack.declaration).map (Declaration.unplaced TypeRef.resolved) := by
    have hresolved := congrArg (List.map (Declaration.unplaced TypeRef.resolved)) hread
    rwa [map_map_congr (Declaration.unplaced_unplaced _ _), map_map_congr (Declaration.unplaced_unplaced _ _),
      TypeRef.resolved_comp_unplaced, TypeRef.resolved_comp_seenIn] at hresolved
  have horderly : ((rebuilt schema base).unplaced TypeRef.resolved).Orderly :=
    ((rebuilt_shuffled h.declared hbase).orderly (h.orderly.rewritten _)).unplaced _
  have hdeclaration : (base.unplaced TypeRef.resolved).declaration = none := by
    rw [Schema.unplaced, hbase.declaration, Option.map_none]
  have hrebuilt : (rebuilt schema base).unplaced TypeRef.resolved =
      { types := (base.unplaced TypeRef.resolved).types ++
          ((schema.textTypes {}).map Rewriting.readBack.type).map (TypeDecl.unplaced TypeRef.resolved)
        directives := (base.unplaced TypeRef.resolved).directives ++
          ((schema.textDirectives {}).map Rewriting.readBack.directive).map (DirectiveDecl.unplaced TypeRef.resolved)
        declaration := (schema.declaration.map Rewriting.readBack.type).map (TypeDecl.unplaced TypeRef.resolved) } := by
    unfold rebuilt Schema.unplaced
    simp only [List.map_append]
  rw [hrebuilt] at horderly ⊢
  have hassemble := assemble_new hdeclaration horderly
  have hwritten : (schema.written.map Rewriting.readBack.declaration).map (Declaration.unplaced TypeRef.resolved) =
      ((schema.declaration.map Rewriting.readBack.type).map (TypeDecl.unplaced TypeRef.resolved)).toList.map .type ++
        (((schema.textDirectives {}).map Rewriting.readBack.directive).map
          (DirectiveDecl.unplaced TypeRef.resolved)).map .directive ++
        (((schema.textTypes {}).map Rewriting.readBack.type).map (TypeDecl.unplaced TypeRef.resolved)).map .type := by
    unfold written
    simp only [List.map_append, List.map_map, Option.toList_map]
    rfl
  rw [← hwritten, ← hplain, assemble_unplaced baseName_resolved] at hassemble
  obtain ⟨hassembled, herrors⟩ := Prod.ext_iff.1 hassemble
  exact ⟨List.map_eq_nil_iff.1 herrors, hassembled⟩

private theorem undefined?_of_hasType {type : TypeRef} (h : schema.hasType type.baseName = true) :
    schema.undefined? type = none := by
  induction type with
  | named name | unresolved name _ => exact if_pos h
  | list _ ih | nonNull _ ih => exact ih h

/-- All that a rebuilt schema refers to is there. -/
private theorem danglingFaults_read (h : schema.LoadedOn base) (hbase : base.Basic) {assembled : Schema}
    (hassembled : assembled.unplaced TypeRef.resolved = (rebuilt schema base).unplaced TypeRef.resolved) :
    assembled.danglingFaults = [] := by
  have hshuffled := rebuilt_shuffled h.declared hbase
  have hthere (name : String) : assembled.hasType name = schema.hasType name := by
    have hunplaced (schema : Schema) : (schema.unplaced TypeRef.resolved).hasType name = schema.hasType name :=
      Members.contains_map fun _ => rfl
    rw [← hunplaced assembled, hassembled, hunplaced, ← hshuffled.hasType, hasType_rewritten]
  refine List.filterMap_eq_nil_iff.2 fun type htype => ?_
  have hresolved : type.resolved ∈ assembled.references.map TypeRef.resolved := List.mem_map_of_mem htype
  rw [← references_unplaced, hassembled, references_unplaced] at hresolved
  obtain ⟨type', htype', hsame⟩ := List.mem_map.1 hresolved
  have hreference : type' ∈ schema.references := by
    rw [← hshuffled.references.mem_iff, ← uses_references, uses_rewritten, uses_references] at htype'
    exact htype'
  rw [← uses_references] at hreference
  obtain ⟨use, huse, rfl⟩ := List.mem_map.1 hreference
  have hexists : assembled.hasType type.baseName = true := by
    rw [← baseName_resolved, ← hsame, baseName_resolved, hthere]
    exact (h.closed use huse).hasType
  rw [danglingFault?, undefined?_of_hasType hexists]

/-- A text that keeps all that a schema says is read and accepted, and gives the schema back. -/
theorem LoadedOn.reload (h : schema.LoadedOn base) (hbase : base.Basic) (hkept : schema.IsKept {}) :
    ∃ read next, base.read? (bytesOf (schema.text {})) = .ok read ∧ base.declare? read = .ok next ∧
      schema.Resembles next := by
  obtain ⟨read, hread, hplain⟩ := @read?_readable base {} schema.written rfl (h.readable hkept)
  rw [← text_eq_lines] at hread
  obtain ⟨herrors, hassembled⟩ := assemble_read h hbase hplain
  have hsaid := h.said hbase hkept
  have hshuffled := rebuilt_shuffled h.declared hbase
  have hvalid : schema.readBack.Valid := h.valid.readBack fun detail hdetail =>
    (hsaid detail hdetail).imp id fun hsaid => hsaid.2.1
  have horderly : schema.readBack.Orderly := h.orderly.rewritten _
  have hresembles : schema.readBack.Resembles (base.assemble read).1.resolved := by
    unfold Resembles
    rw [unplaced_resolved, hassembled, ← hvalid.resolved, unplaced_resolved]
    exact hshuffled.unplaced _
  have hnormal : schema.readBack.normal = schema :=
    h.valid.normal_readBack (h.declared.scalar? h.orderly hbase.boolean) (h.declared.scalar? h.orderly hbase.string) hsaid
  refine ⟨read, _, hread, declare?_eq_ok_iff.2 ⟨herrors, danglingFaults_read h hbase hassembled, ?_, rfl⟩, ?_⟩
  · exact (hresembles.alike horderly).faults hvalid.faults
  · exact hnormal ▸ hresembles.normal horderly

/-! ### Loading -/

/-- What is loaded from a text that extends nothing that is built in. -/
theorem Basic.loadedOn (hbase : base.Basic) (hloaded : base.Loaded) {source : List UInt8} {declarations : List Declaration}
    (hread : base.read? source = .ok declarations) (hnext : base.declare? declarations = .ok next)
    (hnew : ∀ more, .extension more ∈ declarations → base.extended? more = none) : next.LoadedOn base := by
  have hdistinct := hloaded.reachable.distinct
  have horderly := hloaded.reachable.orderly
  have hafter : next.Loaded := .declare hloaded (fun _ hd => ⟨source, declarations, hread, hd⟩) hnext
  refine ⟨hbase.declaredOn.declare? hbase hdistinct horderly hread hnext hnew, hafter.reachable.valid, hafter.closed,
    horderly.declare? hnext, ?_⟩
  have hvalid := hdistinct.valid_resolved (read?_distinct hread) hnext
  obtain ⟨-, -, -, rfl⟩ := declare?_eq_ok_iff.1 hnext
  exact hvalid.complete_normal

theorem initial_basic (options : SchemaOptions) : (initial options).Basic := by
  obtain ⟨hdeclaration, htypes, hdirectives, hdetails⟩ := initial_isBuiltIn options
  obtain ⟨-, -, hscalars, -⟩ := initial_declaresIntrospection options
  exact
    { resolved := (Loaded.initial options).reachable.resolved
      declaration := hdeclaration
      types := htypes
      directives := hdirectives
      details := hdetails
      boolean := hscalars ("Boolean", .boolean) (by decide)
      string := hscalars ("String", .string) (by decide) }

/-! ### Texts that are kept -/

/-- The text is accepted and extends nothing that is there, and its normal layout keeps what it shows. -/
def KeepsText (base : Schema) (layout : SchemaLayout) (source : List UInt8) : Prop :=
  ∃ declarations schema, base.read? source = .ok declarations ∧ base.declare? declarations = .ok schema ∧
    (∀ more, .extension more ∈ declarations → base.extended? more = none) ∧ schema.IsKept layout

section Decidable

variable {layout : SchemaLayout} {source : List UInt8} {declarations : List Declaration}

instance : Decidable (schema.IsKept layout) := decidable_of_iff _ forall_written_iff.symm

/-- The declaration extends nothing that the schema has. -/
private def extendsNothing (base : Schema) : Declaration → Bool
  | .extension more => (base.extended? more).isNone
  | _ => true

private theorem extendsNothing_iff : (∀ d ∈ declarations, base.extendsNothing d = true) ↔
    ∀ more, .extension more ∈ declarations → base.extended? more = none := by
  constructor
  · exact fun h more hmore => Option.isNone_iff_eq_none.1 (h _ hmore)
  · intro h d hd
    cases d with
    | extension more => exact Option.isNone_iff_eq_none.2 (h more hd)
    | type _ | directive _ => rfl

private theorem keepsText_iff (hread : base.read? source = .ok declarations) (hschema : base.declare? declarations = .ok schema) :
    ((∀ d ∈ declarations, base.extendsNothing d = true) ∧ schema.IsKept layout) ↔ base.KeepsText layout source := by
  rw [extendsNothing_iff]
  constructor
  · exact fun ⟨hnew, hkept⟩ => ⟨declarations, schema, hread, hschema, hnew, hkept⟩
  · rintro ⟨_, _, hread', hschema', hnew, hkept⟩
    cases hread.symm.trans hread'
    cases hschema.symm.trans hschema'
    exact ⟨hnew, hkept⟩

instance : Decidable (base.KeepsText layout source) :=
  match hread : base.read? source with
  | .error _ => isFalse fun ⟨_, _, h, _⟩ => by cases hread.symm.trans h
  | .ok declarations =>
    match hschema : base.declare? declarations with
    | .error _ => isFalse fun ⟨_, _, h, h', _⟩ => by
        cases hread.symm.trans h
        cases hschema.symm.trans h'
    | .ok _ => decidable_of_iff _ (keepsText_iff hread hschema)

end Decidable

/-- A schema that is loaded from a text onto what is built in can be loaded from its own text, which gives the same types
and directives, save for where they stand and for their order: if the text extends nothing that is built in, and if what
the literals of the schema read as is coerced to them and no line of a description is lost. -/
theorem reload_text {options : SchemaOptions} {source : List UInt8} {declarations : List Declaration} {schema : Schema}
    (hread : (initial options).read? source = .ok declarations)
    (hschema : (initial options).declare? declarations = .ok schema)
    (hnew : ∀ more, .extension more ∈ declarations → (initial options).extended? more = none) (hkept : schema.IsKept {}) :
    ∃ read next, (initial options).read? (bytesOf (schema.text {})) = .ok read ∧
      (initial options).declare? read = .ok next ∧ schema.Resembles next :=
  have hbase := initial_basic options
  (hbase.loadedOn (.initial options) hread hschema hnew).reload hbase hkept

private def songs : String :=
  "\"\"\"\nA song.\n  Or two.\n\"\"\"\ntype Song @cost\x7brating(scale:Scale=\x7b\x7d):Int\x7d" ++
  "input Scale\x7btop:Int=5\x7d directive @cost(of:[Int])on OBJECT"

set_option maxRecDepth 20000 in
private theorem songs_kept : (initial {}).KeepsText {} (bytesOf songs) := by
  refine initial_of_builtFrom (P := fun schema => schema.KeepsText {} (bytesOf songs)) ?_
  unfold Builtin.source
  exact ⟨_, rfl, by decide +kernel⟩

theorem songs_reload : ∃ declarations schema, (initial {}).read? (bytesOf songs) = .ok declarations ∧
    (initial {}).declare? declarations = .ok schema ∧ schema.IsKept {} ∧
      ∃ read next, (initial {}).read? (bytesOf (schema.text {})) = .ok read ∧
        (initial {}).declare? read = .ok next ∧ schema.Resembles next := by
  obtain ⟨declarations, schema, hread, hschema, hnew, hkept⟩ := songs_kept
  exact ⟨declarations, schema, hread, hschema, hkept, reload_text hread hschema hnew hkept⟩

end Schema

end GraphQL
