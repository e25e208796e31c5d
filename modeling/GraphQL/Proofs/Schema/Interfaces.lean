import GraphQL.Proofs.Schema.Normal
import Mathlib

/-!
# Implementations of interfaces

Validity asks a type to have the fields of the interfaces that it lists. What it implements through other interfaces it
has to list as well, so that it conforms to every interface it implements (`Schema.Loaded.implements_conforms`). This
holds of the schemas that are made from texts, each read against the schema that it is added to: only in these can no
list name an interface that does not exist (`Schema.Loaded.closed`).
-/

namespace GraphQL

/-! ### Loaded schemas -/

/-- The declaration is in a text that was read against the schema. -/
def Declaration.IsReadAgainst (schema : Schema) (d : Declaration) : Prop :=
  ∃ (source : List UInt8) (declarations : List Declaration), schema.read? source = .ok declarations ∧ d ∈ declarations

/-- The schema can be made, from nothing or from what is built in, by declaring what is read against it. -/
inductive Schema.Loaded : Schema → Prop
  | empty : Loaded {}
  | initial (options : SchemaOptions) : Loaded (.initial options)
  | declare {schema next : Schema} {declarations : List Declaration} (hschema : schema.Loaded)
      (hread : ∀ d ∈ declarations, d.IsReadAgainst schema) (h : schema.declare? declarations = .ok next) : Loaded next

namespace Schema

variable {schema next : Schema} {declarations : List Declaration}

theorem Loaded.reachable (h : schema.Loaded) : schema.Reachable := by
  induction h with
  | empty => exact .empty
  | initial options => exact initial_reachable options
  | declare _ hread hnext ih =>
    refine .declare ih (fun d hd => ?_) hnext
    obtain ⟨source, read, hsource, hmem⟩ := hread d hd
    exact .inr ⟨_, source, read, d, hsource, hmem, .inl rfl⟩

/-! ### No list names an interface that does not exist -/

private theorem mem_interfaces_of_use {body : TypeBody} {use : TypeUse} (huse : use ∈ body.uses)
    (hrole : use.role = .interface) (decl : TypeDecl) (hbody : decl.body = body) : use.type ∈ decl.interfaces := by
  have hfields (fields : List FieldDef) : use ∉ fields.flatMap FieldDef.uses := by
    intro hmem
    obtain ⟨field, -, hmem⟩ := List.mem_flatMap.1 hmem
    rcases List.mem_cons.1 hmem with rfl | hmem
    · cases hrole
    · obtain ⟨arg, -, rfl⟩ := List.mem_map.1 hmem
      cases hrole
  unfold TypeDecl.interfaces
  rw [hbody]
  cases body with
  | scalar _ | enum _ => cases huse
  | object body | interface body =>
    rcases List.mem_append.1 huse with huse | huse
    · obtain ⟨interface, hinterface, rfl⟩ := List.mem_map.1 huse
      exact hinterface
    · exact absurd huse (hfields _)
  | union _ | input _ | schema _ =>
    obtain ⟨_, -, rfl⟩ := List.mem_map.1 huse
    cases hrole

/-- What is read names interfaces of the schema or leaves them unresolved. -/
private theorem hasType_of_known {d : Declaration} (hknown : d.KnownIn schema) {use : TypeUse} (huse : use ∈ d.uses)
    (hrole : use.role = .interface) (hresolved : use.type.resolved = use.type) :
    schema.hasType use.type.baseName = true := by
  have hpos (type : TypeRef) (h : type.resolved = type) : type.unresolvedPos? = none := by
    induction type with
    | named _ => rfl
    | unresolved _ _ => cases h
    | list _ ih => exact ih (TypeRef.list.inj h)
    | nonNull _ ih => exact ih (TypeRef.nonNull.inj h)
  cases d with
  | type decl | extension decl =>
    exact (hknown _ (mem_interfaces_of_use huse hrole decl rfl)).2 (hpos _ hresolved)
  | directive decl =>
    obtain ⟨arg, -, rfl⟩ := List.mem_map.1 huse
    cases hrole

theorem hasType_declare? (h : schema.declare? declarations = .ok next) {name : String}
    (hname : schema.hasType name = true) : next.hasType name = true := by
  obtain ⟨-, -, -, rfl⟩ := declare?_eq_ok_iff.1 h
  rw [hasType_normal, hasType_resolved]
  exact hasType_assemble hname

theorem Fits.hasType {use : TypeUse} (h : schema.Fits use) : schema.hasType use.type.baseName = true := by
  obtain ⟨decl, hdecl, -⟩ := h
  unfold Schema.hasType
  rw [← Members.get?_isSome]
  exact Option.isSome_iff_exists.2 ⟨decl, hdecl⟩

/-- A batch leaves a closed schema closed if the interfaces that it lists under the names of types exist. -/
theorem Closed.declare? (hclosed : schema.Closed) (h : schema.declare? declarations = .ok next)
    (hvalid : next.Valid)
    (hgiven : ∀ d ∈ declarations, ∀ use ∈ d.uses, use.role = .interface → use.type.resolved = use.type →
      next.hasType use.type.baseName = true) : next.Closed := by
  intro use huse
  refine fits_of_declare? h huse fun hrole => ?_
  rcases hasType_or_given h huse with hexists | hold | ⟨d, hd, hnew⟩
  · exact hexists
  · exact hasType_declare? h (hclosed use hold).hasType
  · exact hgiven d hd use hnew hrole (resolved_eq_self_iff.1 hvalid.resolved use huse)

private theorem builtin_closed (options : SchemaOptions) : (Builtin.schema options).Closed := by
  have hreachable := builtin_reachable options
  unfold Builtin.schema at hreachable ⊢
  cases hdeclare : Schema.declare? {} (Builtin.declarations options) with
  | error errors => exact nofun
  | ok next =>
    rw [hdeclare] at hreachable
    change next.Reachable at hreachable
    show next.Closed
    have hempty : ({} : Schema).Closed := nofun
    refine hempty.declare? hdeclare hreachable.valid fun d hd use huse hrole hresolved => ?_
    rcases mem_declarations hd with ⟨name, description, kind, rfl⟩ | ⟨declarations, e, hread, he, rfl⟩
    · cases huse
    · have huse : use ∈ e.uses := by cases e <;> exact huse
      have hknown := hasType_of_known (read?_known hread e he) huse hrole hresolved
      obtain ⟨-, -, -, rfl⟩ := declare?_eq_ok_iff.1 hdeclare
      rw [hasType_normal, hasType_resolved]
      exact hasType_assemble_append hknown

/-- In a loaded schema every reference is to a type of the class that its place wants. -/
theorem Loaded.closed (h : schema.Loaded) : schema.Closed := by
  induction h with
  | empty => exact nofun
  | initial options =>
    unfold Schema.initial
    split
    · exact builtin_closed {}
    · exact builtin_closed options
  | declare hschema hread hnext ih =>
    have hvalid := (Loaded.declare hschema hread hnext).reachable.valid
    refine ih.declare? hnext hvalid fun d hd use huse hrole hresolved => ?_
    obtain ⟨source, declarations, hsource, hmem⟩ := hread d hd
    exact hasType_declare? hnext (hasType_of_known (read?_known hsource d hmem) huse hrole hresolved)

/-! ### Interfaces are listed by their names -/

/-- All interfaces that are listed in the uses are just names. -/
def NamesInterfaces (uses : List TypeUse) : Prop :=
  ∀ use ∈ uses, use.role = .interface → use.type.ownName?.isSome = true

private theorem namesInterfaces_of_known {d : Declaration} (hknown : d.KnownIn schema) : NamesInterfaces d.uses := by
  intro use huse hrole
  cases d with
  | type decl | extension decl => exact (hknown _ (mem_interfaces_of_use huse hrole decl rfl)).1
  | directive decl =>
    obtain ⟨arg, -, rfl⟩ := List.mem_map.1 huse
    cases hrole

theorem NamesInterfaces.declare? (hschema : NamesInterfaces schema.uses) (h : schema.declare? declarations = .ok next)
    (hgiven : ∀ d ∈ declarations, NamesInterfaces d.uses) : NamesInterfaces next.uses := by
  intro use huse hrole
  obtain ⟨given, hgivenUse, rfl⟩ := given_of_declare? h huse
  have hnamed : given.type.ownName?.isSome = true := by
    rcases hgivenUse with hold | ⟨d, hd, hnew⟩
    · exact hschema given hold hrole
    · exact hgiven d hd given hnew hrole
  cases htype : given.type with
  | named name | unresolved name pos => rfl
  | list item | nonNull inner => simp [htype, TypeRef.ownName?] at hnamed

private theorem builtin_namesInterfaces (options : SchemaOptions) :
    NamesInterfaces (Builtin.schema options).uses := by
  unfold Builtin.schema
  cases hdeclare : Schema.declare? {} (Builtin.declarations options) with
  | error errors => exact nofun
  | ok next =>
    have hempty : NamesInterfaces ({} : Schema).uses := nofun
    refine hempty.declare? hdeclare fun d hd => ?_
    rcases mem_declarations hd with ⟨name, description, kind, rfl⟩ | ⟨declarations, e, hread, he, rfl⟩
    · exact nofun
    · have hknown := namesInterfaces_of_known (read?_known hread e he)
      cases e <;> exact hknown

/-- In a loaded schema every interface that is listed is just a name. -/
theorem Loaded.namesInterfaces (h : schema.Loaded) : NamesInterfaces schema.uses := by
  induction h with
  | empty => exact nofun
  | initial options =>
    unfold Schema.initial
    split
    · exact builtin_namesInterfaces {}
    · exact builtin_namesInterfaces options
  | declare _ hread hnext ih =>
    refine ih.declare? hnext fun d hd => ?_
    obtain ⟨source, declarations, hsource, hmem⟩ := hread d hd
    exact namesInterfaces_of_known (read?_known hsource d hmem)

/-! ### What a type implements -/

/-- The type of the first name lists the second. -/
def Lists (types : List TypeDecl) (name interface : String) : Prop :=
  ∃ decl, Members.get? name types = some decl ∧ interface ∈ decl.interfaces.map TypeRef.baseName

theorem transGen_of_reaches {interface : String} {unvisited : List TypeDecl} {pending : List String}
    (h : reaches interface unvisited pending = true) :
    ∃ name ∈ pending, Relation.TransGen (Lists unvisited) name interface := by
  induction unvisited, pending using reaches.induct with
  | case1 unvisited => simp [reaches] at h
  | case2 unvisited name pending hfound ih =>
    rw [reaches_cons_of_none hfound] at h
    obtain ⟨start, hstart, hpath⟩ := ih h
    exact ⟨start, List.mem_cons_of_mem _ hstart, hpath⟩
  | case3 unvisited name pending decl hfound names ih =>
    rw [reaches_cons_of_some hfound, Bool.or_eq_true] at h
    rcases h with h | h
    · exact ⟨name, List.mem_cons_self, .single ⟨decl, hfound, List.contains_iff_mem.1 h⟩⟩
    · obtain ⟨start, hstart, hpath⟩ := ih h
      have herased : ∀ first second, Lists (Members.erase name unvisited) first second →
          Lists unvisited first second := by
        rintro first second ⟨decl, hdecl, hlisted⟩
        exact ⟨decl, Members.get?_of_erase hdecl, hlisted⟩
      have hpath : Relation.TransGen (Lists unvisited) start interface := Relation.TransGen.mono herased _ _ hpath
      rcases List.mem_append.1 hstart with hstart | hstart
      · exact ⟨name, List.mem_cons_self, .head ⟨decl, hfound, hstart⟩ hpath⟩
      · exact ⟨start, List.mem_cons_of_mem _ hstart, hpath⟩

theorem transGen_of_implements {name interface : String} (h : schema.implements name interface = true) :
    Relation.TransGen (Lists schema.types) name interface := by
  obtain ⟨start, hstart, hpath⟩ := transGen_of_reaches h
  exact List.mem_singleton.1 hstart ▸ hpath

/-- The type has the fields of the interface, with subtypes of their types, their arguments and no others that are
required. -/
def Conforms (schema : Schema) (type : TypeDecl) (expected : ObjectBody) : Prop :=
  ∀ field ∈ expected.fields, ∃ found, type.field? field.name = some found ∧
    schema.isSubtype found.type field.type = true ∧
      (∀ arg ∈ field.args, ∃ given, Members.get? arg.name found.args = some given ∧ given.type = arg.type) ∧
        ∀ arg ∈ found.args, Members.contains arg.name field.args = false → arg.isRequired = false

/-- A type that lists interfaces has a body of fields, which passed its check. -/
private theorem body_of_lists (hvalid : schema.Valid) {type : TypeDecl} (hmem : type ∈ schema.types)
    {interface : String} (hlisted : interface ∈ type.interfaces.map TypeRef.baseName) :
    ∃ body : ObjectBody, type.interfaces = body.interfaces ∧ type.fields? = some body.fields ∧
      type.body.uses = (TypeBody.object body).uses ∧ schema.objectFaults type body = [] := by
  have hbody := (typeFaults_eq_nil_iff.1 (hvalid.typeFaults hmem)).2.2
  unfold bodyFaults at hbody
  unfold TypeDecl.interfaces at hlisted ⊢
  unfold TypeDecl.fields?
  cases hcase : type.body with
  | object body | interface body =>
    rw [hcase] at hbody
    exact ⟨body, rfl, rfl, rfl, hbody⟩
  | scalar _ | union _ | enum _ | input _ | schema _ => simp [hcase] at hlisted

/-- What a type of a valid and closed schema lists exists. -/
private theorem type?_of_lists (hvalid : schema.Valid) (hclosed : schema.Closed) {name interface : String}
    (h : Lists schema.types name interface) : ∃ decl, schema.type? interface = some decl := by
  obtain ⟨type, htype, hlisted⟩ := h
  have hmem : type ∈ schema.types := Members.mem_of_get? htype
  obtain ⟨body, hinterfaces, -, huses, -⟩ := body_of_lists hvalid hmem hlisted
  rw [hinterfaces] at hlisted
  obtain ⟨reference, hreference, rfl⟩ := List.mem_map.1 hlisted
  have huse : (⟨.interface, reference⟩ : TypeUse) ∈ schema.uses := by
    refine mem_uses_iff.2 (.inl ⟨type, List.mem_append_left _ hmem, ?_⟩)
    rw [huses]
    exact List.mem_append_left _ (List.mem_map_of_mem hreference)
  obtain ⟨decl, hdecl, -⟩ := hclosed _ huse
  exact ⟨decl, hdecl⟩

/-- What a type of a valid schema lists is not the type itself. If it exists, it is an interface that the type conforms
to, and the type lists what the interface does. -/
theorem conforms_of_lists (hvalid : schema.Valid) {name interface : String} (h : Lists schema.types name interface) :
    interface ≠ name ∧ ∃ type, schema.type? name = some type ∧ ∀ decl, schema.type? interface = some decl →
      ∃ expected, decl.body = .interface expected ∧ schema.Conforms type expected ∧
        ∀ inherited ∈ decl.interfaces.map TypeRef.baseName, inherited ≠ name →
          Lists schema.types name inherited := by
  obtain ⟨type, htype, hlisted⟩ := h
  have hname : type.name = name := Members.name_of_get? htype
  obtain ⟨body, hinterfaces, hfields, -, hobject⟩ := body_of_lists hvalid (Members.mem_of_get? htype) hlisted
  rw [hinterfaces] at hlisted
  obtain ⟨hne, hexpected⟩ := interfaceFaults_eq_nil_iff.1 ((objectFaults_eq_nil_iff.1 hobject).2.2 interface hlisted)
  refine ⟨hname ▸ hne, type, htype, fun decl hdecl => ?_⟩
  obtain ⟨expected, hbody, hinherited, hconforms⟩ := hexpected decl hdecl
  refine ⟨expected, hbody, fun field hfield => ?_, fun inherited hlisted' hother => ?_⟩
  · obtain ⟨found, hfound, hsubtype, harguments⟩ := conformanceFaults_eq_nil_iff.1 (hconforms field hfield)
    obtain ⟨hdeclared, hoptional⟩ := argumentsFaults_eq_nil_iff.1 harguments
    exact ⟨found, by simp [TypeDecl.field?, hfields, hfound], hsubtype, hdeclared, hoptional⟩
  · have hlisted' : inherited ∈ expected.interfaces.map TypeRef.baseName := by
      simpa [TypeDecl.interfaces, hbody] using hlisted'
    exact ⟨type, htype, hinterfaces ▸ hinherited inherited hlisted' (hname ▸ hother)⟩

/-- What a type implements through other interfaces it lists, unless it is the type itself. -/
theorem lists_of_transGen (hvalid : schema.Valid) {name interface : String}
    (h : Relation.TransGen (Lists schema.types) name interface) (hne : interface ≠ name) :
    Lists schema.types name interface := by
  have hall : interface = name ∨ Lists schema.types name interface := by
    induction h with
    | single hlists => exact .inr hlists
    | tail hpath hlists ih =>
      next middle inherited =>
      rcases Classical.em (inherited = name) with hsame | hother
      · exact .inl hsame
      · rcases Classical.em (middle = name) with rfl | hmiddle
        · exact .inr hlists
        · obtain ⟨-, type, -, hlisted⟩ := conforms_of_lists hvalid ((ih hmiddle).resolve_left hmiddle)
          obtain ⟨decl, hdecl, hmem⟩ := hlists
          obtain ⟨-, -, -, hinherited⟩ := hlisted decl hdecl
          exact .inr (hinherited inherited hmem hother)
  exact hall.resolve_left hne

/-- In a loaded schema everything that a type implements, directly or through other interfaces, is an interface (save
for the type itself), and the type has all its fields: with subtypes of their types, their arguments at the same types,
and no others that are required. -/
theorem Loaded.implements_conforms (h : schema.Loaded) {name interface : String} (hne : interface ≠ name)
    (himplements : schema.implements name interface = true) :
    ∃ type decl expected, schema.type? name = some type ∧ schema.type? interface = some decl ∧
      decl.body = .interface expected ∧ schema.Conforms type expected := by
  have hvalid := h.reachable.valid
  have hlists := lists_of_transGen hvalid (transGen_of_implements himplements) hne
  obtain ⟨decl, hdecl⟩ := type?_of_lists hvalid h.closed hlists
  obtain ⟨-, type, htype, hlisted⟩ := conforms_of_lists hvalid hlists
  obtain ⟨expected, hbody, hconforms, -⟩ := hlisted decl hdecl
  exact ⟨type, decl, expected, htype, hdecl, hbody, hconforms⟩

/-- What is read from `interface I{i:I}`. -/
private def shape : TypeDecl where
  name := "I"
  pos := ⟨1, 1⟩
  body := .interface { fields := [{ name := "i", type := .unresolved "I" ⟨1, 15⟩, pos := ⟨1, 13⟩ }] }

/-- What is read from `type T implements I{i:T}`. -/
private def square : TypeDecl where
  name := "T"
  pos := ⟨1, 1⟩
  body := .object {
    interfaces := [.unresolved "I" ⟨1, 19⟩]
    fields := [{ name := "i", type := .unresolved "T" ⟨1, 23⟩, pos := ⟨1, 21⟩ }] }

private theorem shape_read : Schema.read? {} "interface I{i:I}".toUTF8.toList = .ok [.type shape] := by
  have hbytes : "interface I{i:I}".toUTF8.toList =
      [105, 110, 116, 101, 114, 102, 97, 99, 101, 32, 73, 123, 105, 58, 73, 125] := by decide +kernel
  rw [hbytes]
  cbv

private theorem square_read : Schema.read? {} "type T implements I{i:T}".toUTF8.toList = .ok [.type square] := by
  have hbytes : "type T implements I{i:T}".toUTF8.toList =
      [116, 121, 112, 101, 32, 84, 32, 105, 109, 112, 108, 101, 109, 101, 110, 116, 115, 32, 73, 123, 105, 58, 84,
        125] := by
    decide +kernel
  rw [hbytes]
  cbv

private def shapes : Schema where
  types := [shape.resolved, square.resolved]

private theorem shapes_loaded : shapes.Loaded := by
  have hdeclare : Schema.declare? {} [.type shape, .type square] = .ok shapes := by cbv
  refine .declare .empty (fun d hd => ?_) hdeclare
  rcases List.mem_cons.1 hd with rfl | hd
  · exact ⟨_, _, shape_read, List.mem_cons_self⟩
  · rw [List.mem_singleton.1 hd]
    exact ⟨_, _, square_read, List.mem_cons_self⟩

theorem shapes_conform :
    shapes.implements "T" "I" = true ∧
      ∃ type decl expected, shapes.type? "T" = some type ∧ shapes.type? "I" = some decl ∧
        decl.body = .interface expected ∧ shapes.Conforms type expected :=
  have himplements : shapes.implements "T" "I" = true := by
    have htype : shapes.type? "T" = some square.resolved := by cbv
    unfold implements
    rw [reaches_cons_of_some htype]
    rfl
  ⟨himplements, shapes_loaded.implements_conforms (by decide) himplements⟩

end Schema

end GraphQL
