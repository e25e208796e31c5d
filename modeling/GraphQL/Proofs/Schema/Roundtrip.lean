import GraphQL.Proofs.Schema.Declarations

/-!
# Schema texts read back

What is written of declarations with all their descriptions reads as these declarations again (`Schema.read?_lines`).
The text does not say where they stood, and a name is resolved against the schema that the text is read for.
-/

namespace GraphQL

namespace Parser

variable {F : Prop} {schema : Schema}

/-- What is ahead behind the lines of a declaration: nothing or an empty line and the others. -/
private theorem join_lines_cons (lines : String) (others : List String) : ∃ next,
    bytesOf (SchemaText.join "\n" (lines :: others)) = bytesOf lines ++ next ∧
      significant next = significant (bytesOf (SchemaText.join "\n" others)) ∧
        (bytesOf (SchemaText.join "\n" others)).length ≤ next.length := by
  unfold SchemaText.join
  cases others with
  | nil =>
    refine ⟨[], ?_, ?_, ?_⟩
    · rw [String.intercalate_singleton, List.append_nil]
    · rw [String.intercalate_nil, bytesOf_empty]
    · rw [String.intercalate_nil, bytesOf_empty]
  | cons lines' others =>
    refine ⟨0x0a :: bytesOf ("\n".intercalate (lines' :: others)), ?_, significant_space (by decide) _, Nat.le_succ _⟩
    rw [String.intercalate_cons_cons, bytesOf_append, bytesOf_append, bytesOf_newline, List.append_assoc]
    rfl

private theorem join_not_link {layout : SchemaLayout} (hlayout : layout.descriptions = true)
    {declarations : List Declaration} (h : ∀ declaration ∈ declarations, declaration.Readable schema) :
    (significant (bytesOf (SchemaText.join "\n" (declarations.map (Declaration.lines layout))))).headD 0 ∉ links := by
  cases declarations with
  | nil =>
    rw [List.map_nil, SchemaText.join, String.intercalate_nil, bytesOf_empty, significant_nil]
    exact (show (0 : UInt8) ∉ links by decide)
  | cons declaration declarations =>
    obtain ⟨next, hnext, _⟩ :=
      join_lines_cons (declaration.lines layout) (declarations.map (Declaration.lines layout))
    rw [List.map_cons, hnext]
    exact (@declaration_reads False schema layout hlayout declaration (h declaration List.mem_cons_self)).not_link next

/-- The lines of declarations read as these. -/
theorem readDeclarations_reads {layout : SchemaLayout} (hlayout : layout.descriptions = true)
    {declarations : List Declaration} (h : ∀ declaration ∈ declarations, declaration.Readable schema) :
    Reads F (Near (bytesOf (SchemaText.join "\n" (declarations.map (Declaration.lines layout)))))
      (readDeclarations schema)
      (·.map (Declaration.unplaced TypeRef.unplaced) =
        (declarations.map Rewriting.readBack.declaration).map (Declaration.unplaced (TypeRef.seenIn schema)))
      (fun _ => True) := by
  refine Reads.each (fun declarations => bytesOf (SchemaText.join "\n" (declarations.map (Declaration.lines layout))))
    (fun declarations => ∀ declaration ∈ declarations, declaration.Readable schema)
    (fun declarations (read : List Declaration) => read.map (Declaration.unplaced TypeRef.unplaced) =
      (declarations.map Rewriting.readBack.declaration).map (Declaration.unplaced (TypeRef.seenIn schema)))
    (fun _ more => ?_) (fun declaration declarations h more hmore => ?_) h
  · rw [List.map_nil, SchemaText.join, String.intercalate_nil, bytesOf_empty]
    refine skipSpace_reads.bind fun b hb => ?_
    rw [significant_nil] at hb
    subst hb
    exact .done rfl fun _ _ => trivial
  · obtain ⟨hdeclaration, hrest⟩ := List.forall_mem_cons.1 h
    obtain ⟨next, hnext, hsignificant, hlength⟩ :=
      join_lines_cons (declaration.lines layout) (declarations.map (Declaration.lines layout))
    have hline := @declaration_reads F schema layout hlayout declaration hdeclaration
    have hread := hline.reads next (.space (by decide) (hsignificant ▸ join_not_link hlayout hrest))
    obtain ⟨b, bytes, hb, hfirst, hshort⟩ := hline.first next
    rw [List.map_cons, hnext, hfirst] at hmore
    rw [List.map_cons, hnext]
    refine Reads.skip hfirst ?_
    rw [ne_of_opening hb (by decide) (by decide), ← hfirst]
    refine hread.skipped.bind fun read hdeclared => ?_
    refine (hmore _ hrest fun left hleft => ⟨?_, ?_⟩).bind fun others hothers => .pure ?_
    · exact hleft.near.trans ((significant_space (by decide) _).trans hsignificant)
    · exact Nat.lt_succ_of_le (hleft.length_le.trans hshort)
    · rw [List.map_cons, List.map_cons, List.map_cons, hdeclared, hothers]

end Parser

namespace Schema

variable {schema : Schema} {layout : SchemaLayout} {declarations : List Declaration}

/-- No byte order mark is in front of written declarations. -/
private theorem head_lines (hlayout : layout.descriptions = true)
    (h : ∀ declaration ∈ declarations, declaration.Readable schema) :
    (bytesOf (SchemaText.join "\n" (declarations.map (Declaration.lines layout)))).head? ≠ some 0xef := by
  cases declarations with
  | nil =>
    rw [List.map_nil, SchemaText.join, String.intercalate_nil, bytesOf_empty]
    exact (Option.some_ne_none _).symm
  | cons declaration declarations =>
    obtain ⟨next, hnext, _⟩ :=
      Parser.join_lines_cons (declaration.lines layout) (declarations.map (Declaration.lines layout))
    obtain ⟨b, bytes, hb, hfirst, _⟩ :=
      (@Parser.declaration_reads False schema layout hlayout declaration (h declaration List.mem_cons_self)).first next
    rw [List.map_cons, hnext]
    intro hhead
    -- A byte order mark is not skipped, so it would be the first byte that is read.
    obtain ⟨rest, hrest⟩ := List.head?_eq_some_iff.1 hhead
    rw [hrest, significant_cons (by decide)] at hfirst
    obtain ⟨rfl, _⟩ := List.cons.inj hfirst
    exact absurd hb (by decide)

/-- What is written of declarations with their descriptions is read as these declarations with their literals read back,
but for where they stand and which of the types that they refer to exist. -/
theorem read?_readable (hlayout : layout.descriptions = true)
    (h : ∀ declaration ∈ declarations, declaration.Readable schema) :
    ∃ read, schema.read? (bytesOf (SchemaText.join "\n" (declarations.map (Declaration.lines layout)))) = .ok read ∧
      read.map (Declaration.unplaced TypeRef.unplaced) =
        (declarations.map Rewriting.readBack.declaration).map (Declaration.unplaced (TypeRef.seenIn schema)) := by
  have hrest := Scanner.rest_ofBytes (head_lines hlayout h)
  obtain ⟨hok, herror⟩ := @Parser.readDeclarations_reads False schema layout hlayout declarations h
    (.ofBytes (bytesOf (SchemaText.join "\n" (declarations.map (Declaration.lines layout)))))
    (congrArg significant hrest)
  unfold read?
  split
  · next read s hrun => exact ⟨read, rfl, (hok read s hrun).1⟩
  · next e s hrun => exact (herror e s hrun).elim

/-- What is written of declarations with their descriptions is read as these declarations, but for where they stand
and which of the types that they refer to exist. -/
theorem read?_lines (hlayout : layout.descriptions = true)
    (h : ∀ declaration ∈ declarations, declaration.Writable schema) :
    ∃ read, schema.read? (bytesOf (SchemaText.join "\n" (declarations.map (Declaration.lines layout)))) = .ok read ∧
      read.map (Declaration.unplaced TypeRef.unplaced) =
        declarations.map (Declaration.unplaced (TypeRef.seenIn schema)) := by
  have hread := read?_readable hlayout fun declaration hmem => (h declaration hmem).readable
  rwa [map_eq_self_iff.2 fun declaration hmem => (h declaration hmem).readBack] at hread

/-- A schema that has the scalar `Int`. -/
private def numbers : Schema := { types := [{ name := "Int", builtin := true, body := .scalar .int }] }

/-- Declarations for a library, some of which refer to types that exist and some to others. -/
private def library : List Declaration :=
  [.directive
      { name := "cost"
        args := [{ name := "weight", description := some "in \"points\"", type := .nonNull (.named "Int"),
                   default := some (.int 1) }]
        locations := [.fieldDefinition, .object]
        repeatable := true },
    .type { name := "Date", description := some "A day.\n  No time.", body := .scalar .any },
    .type
      { name := "Reader"
        directives := [{ name := "cost", args := [("weight", .int 2)], pos := .start }]
        body := .object
          { interfaces := [.named "Node", .named "Named"]
            fields :=
              [{ name := "loans", description := some "Newest first.", type := .nonNull (.list (.named "Date"))
                 args := [{ name := "genres", type := .list (.named "Genre"),
                            default := some (.list [.enum "OTHER"]) }] },
                { name := "age", type := .named "Int" }] } },
    .type { name := "schema", body := .schema { query := some (.named "Reader") } }]

private def libraryText : String :=
  "directive @cost(\"in \\\"points\\\"\" weight: Int! = 1) repeatable on FIELD_DEFINITION | OBJECT\n\n" ++
  "\"\"\"\nA day.\n  No time.\n\"\"\"\nscalar Date\n\n" ++
  "type Reader implements Node & Named @cost(weight: 2) \x7b\n  \"Newest first.\"\n" ++
  "  loans(genres: [Genre] = [OTHER]): [Date]!\n  age: Int\n\x7d\n\n" ++
  "schema \x7b\n  query: Reader\n\x7d\n"

private theorem atom_writable {v : Value} (hatom : v.isAtom = true) (hplain : v.Plain) : v.Writable :=
  ⟨.atom hatom, hplain⟩

private theorem cost_writable {use : DirectiveUse} (h : use = ⟨"cost", [("weight", .int 2)], .start⟩) :
    use.Writable := by
  subst h
  refine ⟨.of_all (by cbv) (by decide), List.nodup_singleton _, fun arg harg => ?_⟩
  obtain rfl := List.mem_singleton.1 harg
  exact ⟨.of_all (by cbv) (by decide), atom_writable rfl (.int 2)⟩

private theorem library_writable : ∀ declaration ∈ library, declaration.Writable numbers := by
  have hint : TypeRef.Writable (.named "Int") := .named (.of_all (by cbv) (by decide))
  have hdate : TypeRef.Writable (.named "Date") := .named (.of_all (by cbv) (by decide))
  have hgenre : TypeRef.Writable (.named "Genre") := .named (.of_all (by cbv) (by decide))
  have hother : Value.Writable (.list [.enum "OTHER"]) := by
    have hsymbol : IsSymbol "OTHER" := ⟨by cbv, by decide, by decide, by decide⟩
    refine ⟨.list fun v hv => ?_, .list fun v hv => ?_⟩
    · exact List.mem_singleton.1 hv ▸ .enum hsymbol
    · exact List.mem_singleton.1 hv ▸ .enum "OTHER"
  have hkept (hblock : SchemaText.isBlock "A day.\n  No time.") :
      SchemaText.IsKeptLines (BlockString.splitLines "A day.\n  No time.".toList) := by
    have hlines : BlockString.splitLines "A day.\n  No time.".toList = ["A day.".toList, "  No time.".toList] := by
      decide +kernel
    rw [hlines]
    refine ⟨fun line hline => ?_, by decide +kernel, by decide +kernel, by decide +kernel⟩
    have hreturn : ∀ line ∈ ["A day.".toList, "  No time.".toList], line.getLast? ≠ some '\r' := by decide +kernel
    exact hreturn line hline
  unfold library
  simp only [List.forall_mem_cons, List.not_mem_nil, IsEmpty.forall_iff, implies_true, and_true]
  refine ⟨?_, ?_, ?_, ?_⟩
  · refine ⟨.of_all (by cbv) (by decide), .none, List.nodup_singleton _, fun arg harg => ?_, by decide, by decide, rfl⟩
    obtain rfl := List.mem_singleton.1 harg
    refine ⟨.of_all (by cbv) (by decide), .nonNull hint rfl, ?_, List.forall_mem_nil _⟩
    rintro _ ⟨⟩
    exact atom_writable rfl (.int 1)
  · refine ⟨.of_all (by cbv) (by decide), ?_, List.forall_mem_nil _, rfl, rfl, by decide⟩
    rintro _ ⟨⟩
    exact hkept
  · refine ⟨.of_all (by cbv) (by decide), .none, fun use huse => cost_writable (List.mem_singleton.1 huse), rfl, ?_,
      ?_, ?_⟩
    · intro type htype
      simp only [List.mem_cons, List.not_mem_nil, or_false] at htype
      rcases htype with rfl | rfl
      · exact ⟨"Node", rfl, .of_all (by cbv) (by decide)⟩
      · exact ⟨"Named", rfl, .of_all (by cbv) (by decide)⟩
    · show List.Nodup ["loans", "age"]
      decide
    · simp only [List.forall_mem_cons, List.not_mem_nil, IsEmpty.forall_iff, implies_true, and_true]
      refine ⟨⟨.of_all (by cbv) (by decide), ?_, .nonNull (.list hdate) rfl, List.nodup_singleton _, ?_,
        List.forall_mem_nil _⟩, ⟨.of_all (by cbv) (by decide), .none, hint, List.nodup_nil, List.forall_mem_nil _,
          List.forall_mem_nil _⟩⟩
      · rintro _ ⟨⟩ hblock
        exact absurd hblock (by decide +kernel)
      · intro arg harg
        obtain rfl := List.mem_singleton.1 harg
        refine ⟨.of_all (by cbv) (by decide), .list hgenre, ?_, List.forall_mem_nil _⟩
        rintro _ ⟨⟩
        exact hother
  · refine ⟨.of_all (by cbv) (by decide), .none, List.forall_mem_nil _, rfl, rfl, fun kind type htype => ?_⟩
    cases kind <;> cases htype
    exact ⟨"Reader", rfl, .of_all (by cbv) (by decide)⟩

theorem library_reads_back : ∃ read, numbers.read? (bytesOf libraryText) = .ok read ∧
    read.map (Declaration.unplaced TypeRef.unplaced) = library.map (Declaration.unplaced (TypeRef.seenIn numbers)) := by
  have htext : SchemaText.join "\n" (library.map (Declaration.lines {})) = libraryText := by decide +kernel
  rw [← htext]
  exact read?_lines rfl library_writable

end Schema

end GraphQL
