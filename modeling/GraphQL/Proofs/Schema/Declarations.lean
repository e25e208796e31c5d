import GraphQL.Proofs.Schema.Members

/-!
# Declarations read back

The lines of a type or a directive read as its declaration, where what follows does not go on with it
(`Parser.declaration_reads`). Behind the keyword, each kind of type has its own grammar, so each has its own lemma; what
they share is how names are listed and that nothing between two parts can be taken for one of them.
-/

namespace GraphQL

namespace Parser

variable {F : Prop} {ahead : List UInt8} {schema : Schema} {marks : List UInt8}

/-! ### Lists of names -/

private theorem listing_eq (first next name : String) (names : List String) :
    SchemaText.listing first next (name :: names) = first ++ SchemaText.join next (name :: names) := by
  have hjoin (name : String) :
      name ++ String.join (names.map (next ++ ·)) = SchemaText.join next (name :: names) := by
    unfold SchemaText.join
    induction names generalizing name with
    | nil => rw [List.map_nil, String.join_nil, String.append_empty, String.intercalate_singleton]
    | cons name' names ih =>
      rw [List.map_cons, String.join_cons, String.append_assoc, ih, String.intercalate_cons_cons, String.append_assoc]
  rw [SchemaText.listing, String.append_assoc, hjoin]

private theorem bytesOf_join_cons {next : String} {separator : UInt8} (hnext : bytesOf next = [0x20, separator, 0x20])
    (name name' : String) (names : List String) (ahead : List UInt8) :
    bytesOf (SchemaText.join next (name :: name' :: names)) ++ ahead =
      bytesOf name ++ 0x20 :: separator :: 0x20 :: (bytesOf (SchemaText.join next (name' :: names)) ++ ahead) := by
  unfold SchemaText.join
  rw [String.intercalate_cons_cons, bytesOf_append, bytesOf_append, hnext, List.append_assoc, List.append_assoc]
  rfl

private theorem bytesOf_join_singleton (next name : String) :
    bytesOf (SchemaText.join next [name]) = bytesOf name := by
  unfold SchemaText.join
  rw [String.intercalate_singleton]

/-- The first name is not the mark between names. -/
private theorem join_ne {name mark : _} (next : String) (names : List String) (hname : IsName name)
    (hmark : Byte.isName mark = false) (ahead : List UInt8) :
    (significant (bytesOf (SchemaText.join next (name :: names)) ++ ahead)).headD 0 ≠ mark := by
  have hfirst : ∃ rest, bytesOf (SchemaText.join next (name :: names)) ++ ahead = bytesOf name ++ rest := by
    cases names with
    | nil => exact ⟨ahead, by rw [bytesOf_join_singleton]⟩
    | cons name' names =>
      unfold SchemaText.join
      rw [String.intercalate_cons_cons, bytesOf_append, bytesOf_append, List.append_assoc, List.append_assoc]
      exact ⟨_, rfl⟩
  obtain ⟨rest, hrest⟩ := hfirst
  obtain ⟨b, bytes, hbytes, hb⟩ := hname.exists_cons
  rw [hrest, hname.significant, hbytes]
  exact ne_of_beq_false (ne_mark hb hmark)

theorem isName_text {type : TypeRef} (h : type.IsWord) : IsName type.text := by
  obtain ⟨name, hown, hname⟩ := h
  cases type with
  | named _ | unresolved _ _ => cases hown; exact hname
  | list _ | nonNull _ => cases hown

section Names

variable {next : String} {separator : UInt8}

/-- Names of types with a separator between them read as these types. -/
theorem readNamedRefs_reads (hnext : bytesOf next = [0x20, separator, 0x20])
    (hseparator : Byte.isSignificant separator = true ∧ Byte.isName separator = false) {types : List TypeRef}
    (hne : types ≠ []) (h : ∀ type ∈ types, type.IsWord) (hahead : Parts [separator] ahead) :
    Reads F (Near (bytesOf (SchemaText.join next (types.map TypeRef.text)) ++ ahead)) (readNamedRefs schema separator)
      (·.map TypeRef.unplaced = types.map (TypeRef.seenIn schema)) (By ahead) := by
  have hpass :
      (significant (bytesOf (SchemaText.join next (types.map TypeRef.text)) ++ ahead)).headD 0 ≠ separator := by
    cases types with
    | nil => exact absurd rfl hne
    | cons type types => exact join_ne next _ (isName_text (h type List.mem_cons_self)) hseparator.2 ahead
  refine (discard_reads (consume_passes hpass)).bind fun _ _ => Reads.skipped ?_
  refine Reads.each (fun types => bytesOf (SchemaText.join next (types.map TypeRef.text)) ++ ahead)
    (fun types => types ≠ [] ∧ ∀ type ∈ types, type.IsWord)
    (fun types (read : List TypeRef) => read.map TypeRef.unplaced = types.map (TypeRef.seenIn schema))
    (fun h => absurd rfl h.1) (fun type types h more hmore => ?_) ⟨hne, h⟩
  obtain ⟨htype, htypes⟩ := List.forall_mem_cons.1 h.2
  cases types with
  | nil =>
    rw [List.map_singleton, bytesOf_join_singleton]
    refine (readNamedRef_reads htype hahead.ends.name).bind fun read hread => ?_
    refine (consume_passes (hahead.ne List.mem_cons_self)).here.bind fun found hfound => ?_
    subst hfound
    exact .done (congrArg (fun type => [type]) hread) fun _ => .inr
  | cons type' types =>
    have hsource : bytesOf (SchemaText.join next ((type :: type' :: types).map TypeRef.text)) ++ ahead =
        bytesOf type.text ++ 0x20 :: separator :: 0x20 ::
          (bytesOf (SchemaText.join next ((type' :: types).map TypeRef.text)) ++ ahead) :=
      bytesOf_join_cons hnext _ _ _ _
    rw [hsource] at hmore ⊢
    rw [(isName_text htype).significant] at hmore
    refine (readNamedRef_reads htype (stops_mark (by decide))).bind fun read hread => ?_
    have hconsume := @consume_reads F (0x20 ::
      (bytesOf (SchemaText.join next ((type' :: types).map TypeRef.text)) ++ ahead)) separator hseparator.1
    rw [← near_space (show Byte.isSpace 0x20 by decide)] at hconsume
    refine hconsume.here.bind fun found hfound => ?_
    subst hfound
    refine (hmore _ ⟨List.cons_ne_nil _ _, htypes⟩ ?_).bind fun reads hreads => .pure ?_
    · rintro _ rfl
      refine ⟨significant_space (by decide) _, ?_⟩
      simp only [List.length_append, List.length_cons]
      omega
    · rw [List.map_cons, hread, hreads]
      rfl

end Names

private theorem spelled_location (location : DirectiveLocation) :
    IsName location.text ∧ DirectiveLocation.ofText? location.text = some location := by
  refine ⟨.of_all ?_ ?_, ?_⟩
  · cases location <;> cbv
  · cases location <;> decide
  · cases location <;> decide

/-- Places of directives with bars between them read as these places. -/
theorem readLocations_reads {locations read : List DirectiveLocation} (hne : locations ≠ [])
    (hnew : (read ++ locations).Nodup) (hahead : Parts [0x7c] ahead) :
    Reads F (Near (bytesOf (SchemaText.join " | " (locations.map DirectiveLocation.text)) ++ ahead))
      (readLocations read) (· = read ++ locations) (By ahead) := by
  refine Reads.items
    (fun locations => bytesOf (SchemaText.join " | " (locations.map DirectiveLocation.text)) ++ ahead)
    (fun locations read => locations ≠ [] ∧ (read ++ locations).Nodup)
    (fun locations read result => result = read ++ locations) (fun _ h => absurd rfl h.1)
    (fun location locations read h more hmore => ?_) ⟨hne, hnew⟩
  obtain ⟨hlocation, hlocation?⟩ := spelled_location location
  have hnot : read.contains location = false := by
    have hdisjoint := List.disjoint_of_nodup_append h.2
    simpa using fun hmem => hdisjoint hmem List.mem_cons_self
  cases locations with
  | nil =>
    rw [List.map_singleton, bytesOf_join_singleton]
    refine (discard_reads skipSpace_reads).bind fun _ _ => position_reads.bind fun pos _ => ?_
    rw [hlocation.significant]
    refine (readName_reads hlocation hahead.ends.name "directive location").here.bind fun name hname => ?_
    subst hname
    rw [hlocation?]
    dsimp only
    rw [hnot]
    refine (consume_passes (hahead.ne List.mem_cons_self)).here.bind fun found hfound => ?_
    subst hfound
    exact .done rfl fun _ => .inr
  | cons location' locations =>
    have hsource : bytesOf (SchemaText.join " | " ((location :: location' :: locations).map DirectiveLocation.text)) ++
        ahead = bytesOf location.text ++ 0x20 :: 0x7c :: 0x20 ::
          (bytesOf (SchemaText.join " | " ((location' :: locations).map DirectiveLocation.text)) ++ ahead) :=
      bytesOf_join_cons bytesOf_bar _ _ _ _
    rw [hsource] at hmore ⊢
    rw [hlocation.significant] at hmore
    refine (discard_reads skipSpace_reads).bind fun _ _ => position_reads.bind fun pos _ => ?_
    rw [hlocation.significant]
    refine (readName_reads hlocation (stops_mark (by decide)) "directive location").here.bind fun name hname => ?_
    subst hname
    rw [hlocation?]
    dsimp only
    rw [hnot]
    have hconsume := @consume_reads F (0x20 ::
      (bytesOf (SchemaText.join " | " ((location' :: locations).map DirectiveLocation.text)) ++ ahead)) 0x7c (by decide)
    rw [← near_space (show Byte.isSpace 0x20 by decide)] at hconsume
    refine hconsume.here.bind fun found hfound => ?_
    subst hfound
    refine (hmore (read ++ [location]) _ ⟨List.cons_ne_nil _ _, ?_⟩ ?_).mono (fun result hresult => ?_) fun _ => id
    · rw [List.append_assoc]
      exact h.2
    · rintro _ rfl
      refine ⟨significant_space (by decide) _, ?_⟩
      simp only [List.length_append, List.length_cons]
      omega
    · rw [hresult, List.append_assoc]
      rfl

/-! ### What stands behind the name of a type -/

private theorem bytesOf_body (members : List String) (ahead : List UInt8) : ∃ next,
    bytesOf (SchemaText.body members) ++ ahead = 0x20 :: 0x7b :: next := by
  rw [SchemaText.body, bytesOf_append, bytesOf_append, bytesOf_openBody]
  exact ⟨_, rfl⟩

private theorem Parts.body (marks : List UInt8) (hmarks : 0x7b ∉ marks) (members : List String) (ahead : List UInt8) :
    Parts marks (bytesOf (SchemaText.body members) ++ ahead) := by
  obtain ⟨next, hnext⟩ := bytesOf_body members ahead
  rw [hnext]
  exact .spaced (by decide) hmarks

private theorem Parts.listing (first next : String) {b : UInt8} (hfirst : (bytesOf first).take 2 = [0x20, b])
    (hb : Byte.isSignificant b = true) (hmarks : b ∉ marks) (names : List String) (hahead : Parts marks ahead) :
    Parts marks (bytesOf (SchemaText.listing first next names) ++ ahead) := by
  cases names with
  | nil =>
    rw [SchemaText.listing, bytesOf_empty]
    exact hahead
  | cons name names =>
    rw [listing_eq, bytesOf_append, ← List.take_append_drop 2 (bytesOf first), hfirst]
    exact .spaced hb hmarks

private theorem keyword_passes {keyword : String} {b : UInt8} (hkeyword : (bytesOf keyword).head? = some b)
    (h : (significant ahead).headD 0 ≠ b) :
    Reads F (Near ahead) (peekKeyword keyword) (· = false) (At (significant ahead)) := by
  refine peekKeyword_passes (fun hhead => h ?_) ?_
  · rw [List.headD_eq_head?_getD, hhead, hkeyword]
    rfl
  · rintro rfl
    rw [bytesOf_empty] at hkeyword
    cases hkeyword

private theorem bytesOf_implements : bytesOf " implements " = 0x20 :: (bytesOf "implements" ++ [0x20]) := by cbv

private theorem readInterfaces_reads {types : List TypeRef} (h : ∀ type ∈ types, type.IsWord)
    (hahead : Parts [0x26, 0x69] ahead) :
    Reads F (Near (bytesOf (SchemaText.listing " implements " " & " (types.map TypeRef.text)) ++ ahead))
      (readInterfaces schema) (·.map TypeRef.unplaced = types.map (TypeRef.seenIn schema)) (By ahead) := by
  cases types with
  | nil =>
    rw [List.map_nil, SchemaText.listing, bytesOf_empty]
    have hfirst : (bytesOf "implements").head? = some 0x69 := by cbv
    refine (keyword_passes hfirst (hahead.ne (by decide))).bind fun found hfound => ?_
    subst hfound
    exact .done rfl fun _ => .inr
  | cons type types =>
    rw [List.map_cons, listing_eq, bytesOf_append, bytesOf_implements, List.append_assoc, List.cons_append,
      List.append_assoc, near_space (by decide)]
    have hname : IsName "implements" := .of_all (by cbv) (by decide)
    have hspace : Stops Byte.isName ([0x20] ++ (bytesOf (SchemaText.join " & " (type.text :: types.map TypeRef.text)) ++
      ahead)) := stops_mark (by decide)
    have hread := @readNamedRefs_reads F ahead schema " & " 0x26 bytesOf_ampersand (by decide)
      (type :: types) (List.cons_ne_nil _ _) h (hahead.mono (by decide))
    rw [← near_space (show Byte.isSpace 0x20 by decide)] at hread
    refine (peekKeyword_reads hname hspace).bind fun found hfound => ?_
    subst hfound
    exact (discard_reads (readToken_reads hname hspace)).bind fun _ _ => hread.here

/-! ### Roots -/

/-- The roots with another one. -/
private def withRoot (roots : SchemaRoots) (root : OperationKind × TypeRef) : SchemaRoots :=
  match root.1 with
  | .query => { roots with query := some root.2 }
  | .mutation => { roots with mutation := some root.2 }
  | .subscription => { roots with subscription := some root.2 }

/-- The kinds of operations that have roots, with these. -/
private def rootList (roots : SchemaRoots) : List (OperationKind × TypeRef) :=
  OperationKind.all.filterMap fun kind => (roots.root? kind).map (kind, ·)

private def rootLine (root : OperationKind × TypeRef) : String := "  " ++ root.1.text ++ ": " ++ root.2.text ++ "\n"

private theorem putRoot_eq {roots : SchemaRoots} {kind : OperationKind} (h : roots.root? kind = none)
    (type : TypeRef) : putRoot roots kind type = some (withRoot roots (kind, type)) := by
  unfold putRoot
  rw [h]
  cases kind <;> rfl

private theorem root?_withRoot {roots : SchemaRoots} {kind other : OperationKind} (h : other ≠ kind)
    (type : TypeRef) : (withRoot roots (kind, type)).root? other = roots.root? other := by
  cases kind <;> cases other <;> first | rfl | exact absurd rfl h

private theorem unplaced_withRoot (ref : TypeRef → TypeRef) (roots : SchemaRoots) (kind : OperationKind)
    (type : TypeRef) : (withRoot roots (kind, type)).unplaced ref = withRoot (roots.unplaced ref) (kind, ref type) := by
  cases kind <;> rfl

private theorem foldl_rootList (ref : TypeRef → TypeRef) (roots : SchemaRoots) :
    ((rootList roots).map fun root => (root.1, ref root.2)).foldl withRoot {} = roots.unplaced ref := by
  obtain ⟨query, mutation, subscription⟩ := roots
  cases query <;> cases mutation <;> cases subscription <;> rfl

private theorem mem_rootList {roots : SchemaRoots} {root : OperationKind × TypeRef} (h : root ∈ rootList roots) :
    roots.root? root.1 = some root.2 := by
  obtain ⟨kind, _, hkind⟩ := List.mem_filterMap.1 h
  obtain ⟨type, htype, rfl⟩ := Option.map_eq_some_iff.1 hkind
  exact htype

private theorem mem_types {roots : SchemaRoots} {kind : OperationKind} {type : TypeRef}
    (h : roots.root? kind = some type) : type ∈ roots.types := by
  unfold SchemaRoots.types
  cases kind <;> simp_all [SchemaRoots.root?]

private theorem nodup_rootList (roots : SchemaRoots) : ((rootList roots).map Prod.fst).Nodup := by
  have hkinds : (rootList roots).map Prod.fst = OperationKind.all.filter fun kind => (roots.root? kind).isSome := by
    obtain ⟨query, mutation, subscription⟩ := roots
    cases query <;> cases mutation <;> cases subscription <;> rfl
  rw [hkinds]
  exact List.Nodup.filter _ (by decide)

private theorem join_rootList (roots : SchemaRoots) :
    String.join (OperationKind.all.map (SchemaText.root roots)) = String.join ((rootList roots).map rootLine) := by
  unfold rootList
  induction OperationKind.all with
  | nil => rfl
  | cons kind kinds ih =>
    rw [List.map_cons, String.join_cons, ih, List.filterMap_cons, SchemaText.root]
    cases roots.root? kind with
    | none => rw [String.empty_append]; rfl
    | some type =>
      rw [Option.map_some, List.map_cons, String.join_cons]
      rfl

/-- What is ahead where roots are left, and then the closing brace. -/
private def rootLines (roots : List (OperationKind × TypeRef)) (ahead : List UInt8) : List UInt8 :=
  bytesOf (String.join (roots.map rootLine)) ++ 0x7d :: ahead

private theorem near_roots (roots : SchemaRoots) (ahead : List UInt8) :
    Near (bytesOf (SchemaText.body (OperationKind.all.map (SchemaText.root roots))) ++ ahead) =
      Near (0x7b :: 0x0a :: rootLines (rootList roots) (0x0a :: ahead)) := by
  rw [SchemaText.body, join_rootList, bytesOf_append, bytesOf_append, bytesOf_openBody, bytesOf_closeBody,
    List.append_assoc, List.append_assoc]
  exact near_space (by decide) _

private theorem rootLines_cons (kind : OperationKind) (type : TypeRef) (roots : List (OperationKind × TypeRef))
    (ahead : List UInt8) :
    rootLines ((kind, type) :: roots) ahead =
      bytesOf "  " ++ (bytesOf kind.text ++ 0x3a :: 0x20 :: (bytesOf type.text ++ 0x0a :: rootLines roots ahead)) := by
  unfold rootLines rootLine
  simp only [List.map_cons, String.join_cons, bytesOf_append, bytesOf_colon, bytesOf_newline, List.append_assoc,
    List.cons_append, List.nil_append]

private theorem readRoots_reads (start : Pos) {roots : List (OperationKind × TypeRef)} {read : SchemaRoots}
    (hroots : ∀ root ∈ roots, root.2.IsWord ∧ read.root? root.1 = none) (hkinds : (roots.map Prod.fst).Nodup) :
    Reads F (Near (rootLines roots ahead)) (readRoots schema start read)
      (fun result => result.unplaced TypeRef.unplaced =
        (roots.map fun root => (root.1, root.2.seenIn schema)).foldl withRoot (read.unplaced TypeRef.unplaced))
      (At ahead) := by
  have hkind (kind : OperationKind) : IsName kind.text ∧ OperationKind.ofText? kind.text = some kind := by
    cases kind <;> exact ⟨.of_all (by cbv) (by decide), by decide⟩
  refine Reads.items (fun roots => rootLines roots ahead)
    (fun roots (read : SchemaRoots) =>
      (∀ root ∈ roots, root.2.IsWord ∧ read.root? root.1 = none) ∧ (roots.map Prod.fst).Nodup)
    (fun roots read (result : SchemaRoots) => result.unplaced TypeRef.unplaced =
      (roots.map fun root => (root.1, root.2.seenIn schema)).foldl withRoot (read.unplaced TypeRef.unplaced))
    (fun read _ more => ?_) (fun root roots read h more hmore => ?_) ⟨hroots, hkinds⟩
  · have hsource : rootLines [] ahead = 0x7d :: ahead := by
      rw [rootLines, List.map_nil, String.join_nil, bytesOf_empty, List.nil_append]
    rw [hsource]
    refine Reads.skip (significant_cons (by decide) _) ?_
    exact (discard_reads readByte_reads).bind fun _ _ => .pure rfl
  · obtain ⟨hroots, hkinds⟩ := h
    obtain ⟨⟨hword, hroot⟩, hrest⟩ := List.forall_mem_cons.1 hroots
    obtain ⟨hkinds, hdistinct⟩ := List.nodup_cons.1 hkinds
    obtain ⟨kind, type⟩ := root
    obtain ⟨hname, hkind⟩ := hkind kind
    have hspaces : ∀ c ∈ "  ".toList, c = ' ' := by simp
    have hfirst := significant_indent hspaces
      (bytesOf kind.text ++ 0x3a :: 0x20 :: (bytesOf type.text ++ 0x0a :: rootLines roots ahead))
    rw [hname.significant] at hfirst
    have hword' := @readNamedRef_reads F (0x0a :: rootLines roots ahead) schema type hword (stops_mark (by decide))
    rw [← near_space (show Byte.isSpace 0x20 by decide)] at hword'
    have hread := @readName_reads F (0x3a :: 0x20 :: (bytesOf type.text ++ 0x0a :: rootLines roots ahead)) kind.text
      hname (stops_mark (by decide)) "operation type"
    obtain ⟨b, bytes, hbytes, hb⟩ := hname.exists_cons
    rw [rootLines_cons] at hmore ⊢
    rw [hfirst] at hmore
    rw [hbytes] at hread hfirst hmore ⊢
    refine Reads.skip hfirst ?_
    rw [ne_mark hb (by decide), ne_mark hb (by decide)]
    refine position_reads.bind fun pos _ => hread.here.bind fun operation hoperation => ?_
    subst hoperation
    refine (expect_reads (by decide)).here.bind fun _ _ => hword'.here.bind fun type' htype => ?_
    have hput := @putRoot_eq read kind hroot type'
    rw [hkind]
    dsimp only
    rw [hput]
    refine (hmore (withRoot read (kind, type')) _ ⟨fun root hmem => ?_, hdistinct⟩ ?_).mono (fun result hresult => ?_)
      fun _ => id
    · have hne : root.1 ≠ kind := fun heq => hkinds (List.mem_map.2 ⟨root, hmem, heq⟩)
      rw [root?_withRoot hne]
      exact hrest root hmem
    · rintro _ rfl
      refine ⟨significant_space (by decide) _, ?_⟩
      simp only [List.length_append, List.length_cons]
      omega
    · rw [hresult, unplaced_withRoot, htype]
      rfl

/-! ### Declarations of types -/

private theorem spaced_reads {α : Type} {p : Parser α} {P : α → Prop} {after : List UInt8 → Prop}
    (hp : Reads F (Near ahead) p P after) : Reads F (At (0x20 :: ahead)) p P after := by
  rw [← near_space (show Byte.isSpace 0x20 by decide)] at hp
  exact hp.here

/-- The declaration is read as `decl`, which has its description from before. -/
private def IsReading (schema : Schema) (decl read : TypeDecl) : Prop :=
  ({ read with description := decl.description } : TypeDecl).unplaced TypeRef.unplaced =
    (Rewriting.readBack.type decl).unplaced (TypeRef.seenIn schema)

section Types

variable {decl : TypeDecl} (h : decl.Readable schema) {pos : Pos}

include h

private theorem isReading_of {name : String} {directives : List DirectiveUse} {body : TypeBody}
    (hname : name = decl.name)
    (hdirectives : directives.map DirectiveUse.unplaced =
      (decl.directives.map Rewriting.readBack.use).map DirectiveUse.unplaced)
    (hbody : body.unplaced TypeRef.unplaced = (Rewriting.readBack.body decl.body).unplaced (TypeRef.seenIn schema)) :
    IsReading schema decl { name, directives, pos, body } := by
  simp only [IsReading, Rewriting.type, TypeDecl.unplaced, hname, hdirectives, hbody, h.declared]

private theorem readScalar_reads {kind : ScalarKind} (hbody : decl.body = .scalar kind)
    (hahead : Parts links ahead) :
    Reads F (Near (bytesOf decl.name ++ (bytesOf (SchemaText.uses decl.directives) ++ ahead))) (readScalar schema pos)
      (IsReading schema decl) (By ahead) := by
  obtain ⟨-, huses, hdetails⟩ := TypeDecl.forall_details_iff.1 h.details
  rw [hbody] at hdetails
  obtain ⟨hname, hkind⟩ := List.forall_mem_cons.1 hdetails
  have hkind : kind = (schema.scalar? decl.name).getD .any := hkind _ List.mem_cons_self
  have hnext : Parts [] (bytesOf (SchemaText.uses decl.directives) ++ ahead) :=
    (hahead.mono (List.nil_subset _)).uses List.not_mem_nil _
  refine (readName_reads hname hnext.ends.name "scalar name").bind fun name hname => ?_
  subst hname
  refine (readUses_reads huses (hahead.mono (by decide))).here.bind fun directives hdirectives => .pure ?_
  refine isReading_of h rfl hdirectives ?_
  rw [hbody, hkind]
  rfl

private theorem readEnum_reads {values : List EnumValue} (hbody : decl.body = .enum values) {layout : SchemaLayout}
    (hlayout : layout.descriptions = true) :
    Reads F (Near (bytesOf decl.name ++ (bytesOf (SchemaText.uses decl.directives) ++
        (bytesOf (SchemaText.body (values.map (SchemaText.symbol layout))) ++ ahead))))
      (readEnum pos) (IsReading schema decl) (At (0x0a :: ahead)) := by
  obtain ⟨-, huses, hdetails⟩ := TypeDecl.forall_details_iff.1 h.details
  rw [hbody] at hdetails
  obtain ⟨hname, hvalues⟩ := List.forall_mem_cons.1 hdetails
  have hdistinct := h.distinct
  rw [hbody] at hdistinct
  have hlines := Parts.body [0x28, 0x40] (by decide) (values.map (SchemaText.symbol layout)) ahead
  have hnext := (hlines.mono (List.nil_subset _)).uses List.not_mem_nil decl.directives
  refine (readName_reads hname hnext.ends.name "enum name").bind fun name hname => ?_
  subst hname
  refine (readUses_reads huses hlines).here.bind fun directives hdirectives => ?_
  have hlines' (value : EnumValue) (hvalue : value ∈ values) :=
    @symbol_reads F schema layout hlayout value (List.forall_mem_flatMap.1 hvalues value hvalue)
  refine (readBody_reads EnumValue.unplaced (fun value => (Rewriting.readBack.symbol value).unplaced) (fun _ => rfl)
    (fun _ => rfl) hlines' hdistinct).near.bind fun values' hvalues' => .pure ?_
  refine isReading_of h rfl hdirectives ?_
  rw [hbody, Rewriting.body, TypeBody.unplaced, TypeBody.unplaced, hvalues', List.map_map]
  rfl

private theorem readInput_reads {fields : List InputValue} (hbody : decl.body = .input fields) {layout : SchemaLayout}
    (hlayout : layout.descriptions = true) :
    Reads F (Near (bytesOf decl.name ++ (bytesOf (SchemaText.uses decl.directives) ++
        (bytesOf (SchemaText.body (fields.map (SchemaText.inputField layout))) ++ ahead))))
      (readInput schema pos) (IsReading schema decl) (At (0x0a :: ahead)) := by
  obtain ⟨-, huses, hdetails⟩ := TypeDecl.forall_details_iff.1 h.details
  rw [hbody] at hdetails
  obtain ⟨hname, hfields⟩ := List.forall_mem_cons.1 hdetails
  have hdistinct := h.distinct
  rw [hbody] at hdistinct
  have hlines := Parts.body [0x28, 0x40] (by decide) (fields.map (SchemaText.inputField layout)) ahead
  have hnext := (hlines.mono (List.nil_subset _)).uses List.not_mem_nil decl.directives
  refine (readName_reads hname hnext.ends.name "input name").bind fun name hname => ?_
  subst hname
  refine (readUses_reads huses hlines).here.bind fun directives hdirectives => ?_
  have hlines' (field : InputValue) (hfield : field ∈ fields) :=
    @inputField_reads F schema layout hlayout field (List.forall_mem_flatMap.1 hfields field hfield)
  refine (readBody_reads (InputValue.unplaced TypeRef.unplaced)
    (fun field => (Rewriting.readBack.input field).unplaced (TypeRef.seenIn schema)) (fun _ => rfl) (fun _ => rfl)
    hlines' hdistinct).near.bind fun fields' hfields' => .pure ?_
  refine isReading_of h rfl hdirectives ?_
  rw [hbody, Rewriting.body, TypeBody.unplaced, TypeBody.unplaced, hfields', List.map_map]
  rfl

private theorem readUnion_reads {members : List TypeRef} (hbody : decl.body = .union members)
    (hahead : Parts links ahead) :
    Reads F (Near (bytesOf decl.name ++ (bytesOf (SchemaText.uses decl.directives) ++
        (bytesOf (SchemaText.listing " = " " | " (members.map TypeRef.text)) ++ ahead))))
      (readUnion schema pos) (IsReading schema decl) (By ahead) := by
  obtain ⟨-, huses, hdetails⟩ := TypeDecl.forall_details_iff.1 h.details
  rw [hbody] at hdetails
  obtain ⟨hname, hwords⟩ := List.forall_mem_cons.1 hdetails
  have hwords : ∀ type ∈ members, type.IsWord := fun type htype => hwords _ (List.mem_map_of_mem htype)
  have hmembers : Parts [0x28, 0x40] (bytesOf (SchemaText.listing " = " " | " (members.map TypeRef.text)) ++ ahead) :=
    (hahead.mono (by decide)).listing " = " " | " (b := 0x3d) (by cbv) (by decide) (by decide) _
  have hnext := (hmembers.mono (List.nil_subset _)).uses List.not_mem_nil decl.directives
  refine (readName_reads hname hnext.ends.name "union name").bind fun name hname => ?_
  subst hname
  refine (readUses_reads huses hmembers).here.bind fun directives hdirectives => ?_
  cases members with
  | nil =>
    rw [List.map_nil, SchemaText.listing, bytesOf_empty, List.nil_append]
    refine (consume_passes (hahead.ne (by decide))).near.bind fun found hfound => ?_
    subst hfound
    refine .done (isReading_of h rfl hdirectives ?_) fun _ => .inr
    rw [hbody]
    rfl
  | cons member members =>
    have hread := @readNamedRefs_reads F ahead schema " | " 0x7c bytesOf_bar (by decide) (member :: members)
      (List.cons_ne_nil _ _) hwords (hahead.mono (by decide))
    rw [← near_space (show Byte.isSpace 0x20 by decide)] at hread
    rw [List.map_cons, listing_eq, bytesOf_append, bytesOf_equals, List.append_assoc]
    have hconsume := @consume_reads F (0x20 ::
      (bytesOf (SchemaText.join " | " (member.text :: members.map TypeRef.text)) ++ ahead)) 0x3d (by decide)
    rw [← near_space (show Byte.isSpace 0x20 by decide)] at hconsume
    refine hconsume.near.bind fun found hfound => ?_
    subst hfound
    refine hread.here.bind fun members' hmembers' => .pure (isReading_of h rfl hdirectives ?_)
    rw [hbody]
    exact congrArg TypeBody.union hmembers'

private theorem readSchemaDecl_reads {roots : SchemaRoots} (hbody : decl.body = .schema roots) :
    Reads F (Near (bytesOf (SchemaText.uses decl.directives) ++
        (bytesOf (SchemaText.body (OperationKind.all.map (SchemaText.root roots))) ++ ahead)))
      (readSchemaDecl schema pos) (IsReading schema decl) (At (0x0a :: ahead)) := by
  obtain ⟨-, huses, hdetails⟩ := TypeDecl.forall_details_iff.1 h.details
  rw [hbody] at hdetails
  obtain ⟨hname, hroots⟩ := List.forall_mem_cons.1 hdetails
  have hlines := Parts.body [0x28, 0x40] (by decide) (OperationKind.all.map (SchemaText.root roots)) ahead
  have hread := @readRoots_reads F (0x0a :: ahead) schema pos (rootList roots) {}
    (fun root hmem => ⟨List.forall_mem_map.1 hroots root.2 (mem_types (mem_rootList hmem)), by cases root.1 <;> rfl⟩)
    (nodup_rootList roots)
  rw [← near_space (show Byte.isSpace 0x0a by decide)] at hread
  have hconsume := @consume_reads F (0x0a :: rootLines (rootList roots) (0x0a :: ahead)) 0x7b (by decide)
  rw [← near_roots] at hconsume
  refine (readUses_reads huses hlines).bind fun directives hdirectives => ?_
  refine hconsume.near.bind fun found hfound => ?_
  subst hfound
  refine hread.here.bind fun roots' hroots' => .pure (isReading_of h (Eq.symm hname) hdirectives ?_)
  rw [hbody]
  exact congrArg TypeBody.schema (hroots'.trans (foldl_rootList _ roots))

private theorem readObject_reads {body : ObjectBody} (make : ObjectBody → TypeBody) (hbody : decl.body = make body)
    (hmake : ∀ (ref : TypeRef → TypeRef) (body : ObjectBody), (make body).unplaced ref = make (body.unplaced ref))
    (hrewritten : Rewriting.readBack.body (make body) =
      make { body with fields := body.fields.map Rewriting.readBack.field })
    (hdetails : (make body).details decl.name = .name decl.name :: body.details)
    (hdistinct : Members.Distinct body.fields ∧ ∀ field ∈ body.fields, Members.Distinct field.args)
    {layout : SchemaLayout} (hlayout : layout.descriptions = true) :
    Reads F (Near (bytesOf decl.name ++
        (bytesOf (SchemaText.listing " implements " " & " (body.interfaces.map TypeRef.text)) ++
          (bytesOf (SchemaText.uses decl.directives) ++
            (bytesOf (SchemaText.body (body.fields.map (SchemaText.field layout))) ++ ahead)))))
      (readObject schema make pos) (IsReading schema decl) (At (0x0a :: ahead)) := by
  obtain ⟨-, huses, hname⟩ := TypeDecl.forall_details_iff.1 h.details
  rw [hbody, hdetails] at hname
  obtain ⟨hname, hmembers⟩ := List.forall_mem_cons.1 hname
  obtain ⟨hwords, hfields⟩ := ObjectBody.forall_details_iff.1 hmembers
  have hlines := Parts.body [0x26, 0x28, 0x40, 0x69] (by decide)
    (body.fields.map (SchemaText.field layout)) ahead
  have hnext : Parts [0x26, 0x69] _ := (hlines.mono (by decide)).uses (by decide) decl.directives
  have hstop := (hnext.mono (List.nil_subset _)).listing " implements " " & " (b := 0x69)
    (by cbv) (by decide) List.not_mem_nil (body.interfaces.map TypeRef.text)
  have hlines' (field : FieldDef) (hfield : field ∈ body.fields) :=
    @field_reads F schema layout hlayout field (hfields field hfield) (hdistinct.2 field hfield)
  refine (readName_reads hname hstop.ends.name "type name").bind fun name hname => ?_
  subst hname
  refine (readInterfaces_reads hwords hnext).here.bind fun interfaces hinterfaces => ?_
  refine (readUses_reads huses (hlines.mono (by decide))).near.bind fun directives hdirectives => ?_
  refine (readBody_reads (FieldDef.unplaced TypeRef.unplaced)
    (fun field => (Rewriting.readBack.field field).unplaced (TypeRef.seenIn schema)) (fun _ => rfl) (fun _ => rfl)
    hlines' hdistinct.1).near.bind fun fields hfields => .pure ?_
  refine isReading_of h rfl hdirectives ?_
  rw [hbody, hrewritten, hmake, hmake]
  simp only [ObjectBody.unplaced, hinterfaces, hfields, List.map_map]
  rfl

/-- What stands behind the keyword of a type reads as the rest of its declaration. -/
private theorem readTypeDecl?_reads {layout : SchemaLayout} (hlayout : layout.descriptions = true)
    (hahead : Parts links (0x0a :: ahead)) :
    ∃ rest, bytesOf (SchemaText.typeBody layout decl) ++ ahead = bytesOf decl.body.keyword ++ rest ∧
      Stops Byte.isName rest ∧ ∀ pos, ∃ p, readTypeDecl? schema decl.body.keyword pos = some p ∧
        Reads F (At rest) p (IsReading schema decl) (By (0x0a :: ahead)) := by
  have hdistinct := h.distinct
  unfold SchemaText.typeBody
  cases hbody : decl.body with
  | scalar kind =>
    have hkeyword : bytesOf "scalar " = bytesOf "scalar" ++ [0x20] := by cbv
    refine ⟨_, ?_, stops_mark (by decide), fun pos => ⟨_, rfl, spaced_reads (readScalar_reads h hbody hahead)⟩⟩
    simp only [TypeBody.keyword, bytesOf_append, hkeyword, bytesOf_newline, List.append_assoc, List.cons_append,
      List.nil_append]
  | object body =>
    rw [hbody] at hdistinct
    refine ⟨_, ?_, stops_mark (by decide), fun pos => ⟨_, rfl, spaced_reads
      (readObject_reads h .object hbody (fun _ _ => rfl) rfl rfl hdistinct hlayout).loosely⟩⟩
    simp only [TypeBody.keyword, bytesOf_append, bytesOf_space, List.append_assoc, List.cons_append, List.nil_append]
  | interface body =>
    rw [hbody] at hdistinct
    refine ⟨_, ?_, stops_mark (by decide), fun pos => ⟨_, rfl, spaced_reads
      (readObject_reads h .interface hbody (fun _ _ => rfl) rfl rfl hdistinct hlayout).loosely⟩⟩
    simp only [TypeBody.keyword, bytesOf_append, bytesOf_space, List.append_assoc, List.cons_append, List.nil_append]
  | union members =>
    have hkeyword : bytesOf "union " = bytesOf "union" ++ [0x20] := by cbv
    refine ⟨_, ?_, stops_mark (by decide), fun pos => ⟨_, rfl, spaced_reads (readUnion_reads h hbody hahead)⟩⟩
    simp only [TypeBody.keyword, bytesOf_append, hkeyword, bytesOf_newline, List.append_assoc, List.cons_append,
      List.nil_append]
  | enum values =>
    have hkeyword : bytesOf "enum " = bytesOf "enum" ++ [0x20] := by cbv
    refine ⟨_, ?_, stops_mark (by decide), fun pos => ⟨_, rfl, spaced_reads
      (readEnum_reads h hbody hlayout).loosely⟩⟩
    simp only [TypeBody.keyword, bytesOf_append, hkeyword, List.append_assoc, List.cons_append, List.nil_append]
  | input fields =>
    have hkeyword : bytesOf "input " = bytesOf "input" ++ [0x20] := by cbv
    refine ⟨_, ?_, stops_mark (by decide), fun pos => ⟨_, rfl, spaced_reads
      (readInput_reads h hbody hlayout).loosely⟩⟩
    simp only [TypeBody.keyword, bytesOf_append, hkeyword, List.append_assoc, List.cons_append, List.nil_append]
  | schema roots =>
    have hlines := Parts.body [] List.not_mem_nil (OperationKind.all.map (SchemaText.root roots)) ahead
    refine ⟨_, ?_, (hlines.uses List.not_mem_nil decl.directives).ends.name, fun pos => ⟨_, rfl,
      (readSchemaDecl_reads h hbody).here.loosely⟩⟩
    simp only [TypeBody.keyword, bytesOf_append, List.append_assoc]

end Types

/-! ### Declarations of directives -/

section Directives

variable {decl : DirectiveDecl} (h : decl.Readable schema) {pos : Pos}

/-- What is ahead behind the arguments of a directive that cannot be repeated. -/
private def placesBytes (decl : DirectiveDecl) (ahead : List UInt8) : List UInt8 :=
  bytesOf (SchemaText.listing " on " " | " (decl.locations.map DirectiveLocation.text)) ++ ahead

/-- What is ahead behind the arguments of a directive. -/
private def repeatableBytes (decl : DirectiveDecl) (ahead : List UInt8) : List UInt8 :=
  bytesOf (if decl.repeatable then " repeatable" else "") ++ placesBytes decl ahead

include h

private theorem placesBytes_eq (ahead : List UInt8) :
    placesBytes decl ahead = 0x20 :: (bytesOf "on" ++
      0x20 :: (bytesOf (SchemaText.join " | " (decl.locations.map DirectiveLocation.text)) ++ ahead)) := by
  have hon : bytesOf " on " = 0x20 :: (bytesOf "on" ++ [0x20]) := by cbv
  have hplaced := (DirectiveDecl.forall_details_iff.1 h.details).2.1.1
  unfold placesBytes
  cases hlocations : decl.locations with
  | nil => exact absurd hlocations hplaced
  | cons location locations =>
    rw [List.map_cons, listing_eq, bytesOf_append, hon]
    simp only [List.cons_append, List.append_assoc, List.nil_append]

private theorem Parts.places (hmarks : 0x6f ∉ marks) (ahead : List UInt8) : Parts marks (placesBytes decl ahead) := by
  have hon : bytesOf "on" = [0x6f, 0x6e] := by cbv
  rw [placesBytes_eq h, hon]
  exact .spaced (by decide) hmarks

private theorem Parts.repeatable (hplaces : 0x6f ∉ marks) (hmarks : 0x72 ∉ marks) (ahead : List UInt8) :
    Parts marks (repeatableBytes decl ahead) := by
  unfold repeatableBytes
  split
  · have hrepeatable : (bytesOf " repeatable").take 2 = [0x20, 0x72] := by cbv
    rw [← List.take_append_drop 2 (bytesOf " repeatable"), hrepeatable]
    exact .spaced (by decide) hmarks
  · rw [bytesOf_empty]
    exact .places h hplaces ahead

private theorem readPlaces_reads (hahead : Parts links ahead) {name : String} {args : List InputValue}
    {repeatable : Bool} :
    Reads F (Near (placesBytes decl ahead))
      (do
        if !(← peekKeyword "on") then
          fail (.expected "'on'" (← skipSpace))
        discard readToken
        discard (consume 0x7c)
        let locations ← readLocations []
        return ({ name, args, locations, repeatable, pos } : DirectiveDecl))
      (· = { name, args, locations := decl.locations, repeatable, pos }) (By ahead) := by
  obtain ⟨-, ⟨hplaced, hplaces⟩, -⟩ := DirectiveDecl.forall_details_iff.1 h.details
  have hon : IsName "on" := .of_all (by cbv) (by decide)
  have hstop : Stops Byte.isName (0x20 ::
      (bytesOf (SchemaText.join " | " (decl.locations.map DirectiveLocation.text)) ++ ahead)) :=
    stops_mark (by decide)
  have hpass : (significant (0x20 ::
      (bytesOf (SchemaText.join " | " (decl.locations.map DirectiveLocation.text)) ++ ahead))).headD 0 ≠ 0x7c := by
    rw [significant_space (by decide)]
    cases hlocations : decl.locations with
    | nil => exact absurd hlocations hplaced
    | cons location locations => exact join_ne " | " _ (spelled_location location).1 (by decide) ahead
  have hread := @readLocations_reads F ahead decl.locations [] hplaced hplaces (hahead.mono (by decide))
  rw [← near_space (show Byte.isSpace 0x20 by decide)] at hread
  rw [placesBytes_eq h, near_space (by decide)]
  refine (peekKeyword_reads hon hstop).bind fun found hfound => ?_
  subst hfound
  refine (discard_reads (readToken_reads hon hstop)).bind fun _ _ => ?_
  refine (discard_reads (consume_passes hpass)).here.bind fun _ _ => hread.skipped.bind fun locations hlocations => ?_
  subst hlocations
  exact .pure rfl

private theorem readDirective_reads (hahead : Parts links ahead) :
    Reads F (Near (0x40 :: (bytesOf decl.name ++
        (bytesOf (SchemaText.argumentDecls decl.args) ++ repeatableBytes decl ahead))))
      (readDirective schema pos)
      (fun read => ({ read with description := decl.description } : DirectiveDecl).unplaced TypeRef.unplaced =
        (Rewriting.readBack.directive decl).unplaced (TypeRef.seenIn schema))
      (By ahead) := by
  obtain ⟨hname, -, -, hdetails⟩ := DirectiveDecl.forall_details_iff.1 h.details
  have hrest : Parts [0x28] (repeatableBytes decl ahead) := .repeatable h (by decide) (by decide) ahead
  refine (expect_reads (by decide)).bind fun _ _ => ?_
  have hstop : Stops Byte.isName (bytesOf (SchemaText.argumentDecls decl.args) ++ repeatableBytes decl ahead) :=
    stops_enclosed _ _ hrest.ends.name
  have hargs := @readOptionalArgumentDecls_reads F _ schema _ hdetails h.distinct (hrest.ne List.mem_cons_self)
  refine (readName_reads hname hstop "directive name").here.bind fun name hname => ?_
  refine hargs.here.bind fun args hargs => ?_
  have hread (repeatable : Bool) (hrepeatable : repeatable = decl.repeatable) :
      ({ name, args, locations := decl.locations, repeatable, pos, description := decl.description } :
        DirectiveDecl).unplaced TypeRef.unplaced =
          (Rewriting.readBack.directive decl).unplaced (TypeRef.seenIn schema) := by
    simp only [DirectiveDecl.unplaced, Rewriting.directive, hname, hargs, hrepeatable, h.declared]
  unfold repeatableBytes
  cases hrepeatable : decl.repeatable with
  | false =>
    have hfirst : (bytesOf "repeatable").head? = some 0x72 := by cbv
    have hpass : Parts [0x72] (placesBytes decl ahead) := .places h (by decide) ahead
    rw [if_neg Bool.false_ne_true, bytesOf_empty, List.nil_append]
    refine (keyword_passes hfirst (hpass.ne List.mem_cons_self)).near.bind fun found hfound => ?_
    subst hfound
    refine (readPlaces_reads h hahead).skipped.mono (fun read hplaces => ?_) fun _ => id
    rw [hplaces]
    exact hread false hrepeatable.symm
  | true =>
    have hkeyword : IsName "repeatable" := .of_all (by cbv) (by decide)
    have hspace : bytesOf " repeatable" = 0x20 :: bytesOf "repeatable" := by cbv
    have hplaces : Parts [] (placesBytes decl ahead) := .places h List.not_mem_nil ahead
    have hpeek := @peekKeyword_reads F (placesBytes decl ahead) "repeatable" hkeyword hplaces.ends.name
    rw [← near_space (show Byte.isSpace 0x20 by decide)] at hpeek
    rw [if_pos rfl, hspace]
    refine hpeek.near.bind fun found hfound => ?_
    subst hfound
    refine (discard_reads (readToken_reads hkeyword hplaces.ends.name)).bind fun _ _ => ?_
    refine (readPlaces_reads h hahead).here.mono (fun read hplaces => ?_) fun _ => id
    rw [hplaces]
    exact hread true hrepeatable.symm

end Directives

/-! ### Declarations -/

section Declarations

variable {layout : SchemaLayout} (hlayout : layout.descriptions = true)

private theorem isName_keyword (body : TypeBody) : IsName body.keyword := by
  refine .of_all ?_ ?_
  · cases body <;> cbv
  · cases body <;> simp [TypeBody.keyword]

/-- The lines of a type start with its keyword. -/
private theorem typeBody_opens (layout : SchemaLayout) (type : TypeDecl) :
    ∃ text, SchemaText.typeBody layout type = text ++ "\n" ∧ Opens text := by
  have hbody (members : List String) :
      SchemaText.body members = " \x7b\n" ++ String.join members ++ "\x7d" ++ "\n" := by
    rw [SchemaText.body, show "\x7d\n" = "\x7d" ++ "\n" from rfl, String.append_assoc, String.append_assoc,
      String.append_assoc]
  have hopens (body : TypeBody) (rest : String) : Opens (body.keyword ++ rest) :=
    (Opens.name (isName_keyword body)).append rest
  unfold SchemaText.typeBody
  cases type.body with
  | schema roots =>
    simp only [hbody, ← String.append_assoc]
    refine ⟨_, rfl, ?_⟩
    simp only [String.append_assoc]
    exact hopens (.schema roots) _
  | scalar kind =>
    refine ⟨_, rfl, ?_⟩
    simp only [show "scalar " = "scalar" ++ " " from rfl, String.append_assoc]
    exact hopens (.scalar kind) _
  | object body | interface body =>
    simp only [hbody, ← String.append_assoc]
    refine ⟨_, rfl, ?_⟩
    simp only [String.append_assoc]
    exact hopens _ _
  | union members =>
    refine ⟨_, rfl, ?_⟩
    simp only [show "union " = "union" ++ " " from rfl, String.append_assoc]
    exact hopens (.union members) _
  | enum values =>
    simp only [hbody, show "enum " = "enum" ++ " " from rfl, ← String.append_assoc]
    refine ⟨_, rfl, ?_⟩
    simp only [String.append_assoc]
    exact hopens (.enum values) _
  | input fields =>
    simp only [hbody, show "input " = "input" ++ " " from rfl, ← String.append_assoc]
    refine ⟨_, rfl, ?_⟩
    simp only [String.append_assoc]
    exact hopens (.input fields) _

include hlayout

theorem type_reads {decl : TypeDecl} (h : decl.Readable schema) :
    ReadsLines F (readDeclaration schema) (SchemaText.type layout decl)
      (·.unplaced TypeRef.unplaced =
        (Rewriting.readBack.declaration (.type decl)).unplaced (TypeRef.seenIn schema)) := by
  have hdescribed := (TypeDecl.forall_details_iff.1 h.details).1
  have hkeyword := isName_keyword decl.body
  have hindent : ∀ c ∈ "".toList, c = ' ' := by simp
  refine ⟨?_, fun ahead hahead => ?_⟩
  · obtain ⟨text, htext, hopens⟩ := typeBody_opens layout decl
    refine ⟨_, ?_, hopens.described layout hindent decl.description⟩
    rw [SchemaText.type, htext, String.append_assoc]
  · obtain ⟨rest, hrest, hstop, hdecl⟩ := readTypeDecl?_reads h hlayout hahead
    have hquote := name_ne_quote hkeyword rest
    rw [SchemaText.type, bytesOf_append, List.append_assoc, hrest]
    refine (readDescriptionLines_reads hlayout hindent hdescribed hquote).bind fun description hdescription => ?_
    refine skipSpace_reads.bind fun b _ => ?_
    rw [hkeyword.significant]
    refine position_reads.bind fun pos _ => (readToken_reads hkeyword hstop).bind fun keyword hread => ?_
    subst hread
    have hempty : decl.body.keyword.isEmpty = false := by simpa using hkeyword.1
    have hextend : decl.body.keyword ≠ "extend" := by cases decl.body <;> simp [TypeBody.keyword]
    obtain ⟨p, hp, hread⟩ := hdecl pos
    rw [hempty]
    dsimp only
    rw [if_neg hextend, hp]
    refine hread.bind fun read hread => .pure ?_
    subst hdescription
    exact congrArg Declaration.type hread

theorem directive_reads {decl : DirectiveDecl} (h : decl.Readable schema) :
    ReadsLines F (readDeclaration schema) (SchemaText.directive layout decl)
      (·.unplaced TypeRef.unplaced =
        (Rewriting.readBack.declaration (.directive decl)).unplaced (TypeRef.seenIn schema)) := by
  obtain ⟨-, -, hdescribed, -⟩ := DirectiveDecl.forall_details_iff.1 h.details
  have hkeyword : IsName "directive" := .of_all (by cbv) (by decide)
  have hmark : bytesOf "directive @" = bytesOf "directive" ++ [0x20, 0x40] := by cbv
  have hindent : ∀ c ∈ "".toList, c = ' ' := by simp
  refine ⟨⟨_, rfl, ?_⟩, fun ahead hahead => ?_⟩
  · simp only [show "directive @" = "directive" ++ " @" from rfl, String.append_assoc]
    exact ((Opens.name hkeyword).append _).described layout hindent decl.description
  · have hread (pos : Pos) := spaced_reads (@readDirective_reads F (0x0a :: ahead) schema decl h pos hahead)
    have hstop : Stops Byte.isName (0x20 :: 0x40 :: (bytesOf decl.name ++
        (bytesOf (SchemaText.argumentDecls decl.args) ++ repeatableBytes decl (0x0a :: ahead)))) :=
      stops_mark (by decide)
    have hquote := @name_ne_quote "directive" hkeyword (0x20 :: 0x40 :: (bytesOf decl.name ++
        (bytesOf (SchemaText.argumentDecls decl.args) ++ repeatableBytes decl (0x0a :: ahead))))
    rw [SchemaText.directive]
    simp only [bytesOf_append, hmark, bytesOf_newline, List.append_assoc, List.cons_append, List.nil_append]
    refine (readDescriptionLines_reads hlayout hindent hdescribed hquote).bind fun description hdescription => ?_
    refine skipSpace_reads.bind fun b _ => ?_
    rw [hkeyword.significant]
    refine position_reads.bind fun pos _ => (readToken_reads hkeyword hstop).bind fun keyword hkeyword => ?_
    subst hkeyword
    refine (hread pos).bind fun read hread => .pure ?_
    subst hdescription
    exact congrArg Declaration.directive hread

theorem declaration_reads {declaration : Declaration} (h : declaration.Readable schema) :
    ReadsLines F (readDeclaration schema) (declaration.lines layout)
      (·.unplaced TypeRef.unplaced =
        (Rewriting.readBack.declaration declaration).unplaced (TypeRef.seenIn schema)) := by
  cases declaration with
  | type decl => exact type_reads hlayout h
  | directive decl => exact directive_reads hlayout h
  | extension decl => cases h

end Declarations

end Parser

end GraphQL
