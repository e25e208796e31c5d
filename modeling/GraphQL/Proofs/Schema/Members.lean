import GraphQL.Proofs.Schema.Written

/-!
# Members read back

Arguments, fields and symbols read back from what is written of them, and so does a body of them, whatever its members
are (`Parser.readBody_reads`). A line of a member starts with a name or a description, never with a mark that would go on
with the line before.
-/

namespace GraphQL

namespace Parser

variable {F : Prop} {ahead : List UInt8} {schema : Schema}

/-! ### What comes first -/

/-- The marks that go on with what stands in front of them. -/
def links : List UInt8 := [0x21, 0x26, 0x28, 0x3d, 0x40, 0x7c]

/-- A name or a text in quotation marks comes first, possibly after spaces. -/
def Opens (text : String) : Prop :=
  ∃ b bytes, (Byte.isName b = true ∨ b = 0x22) ∧ ∀ ahead, significant (bytesOf text ++ ahead) = b :: (bytes ++ ahead)

theorem ne_of_opening {b mark : UInt8} (h : Byte.isName b = true ∨ b = 0x22) (hmark : Byte.isName mark = false)
    (hquote : mark ≠ 0x22) : (b == mark) = false := by
  rcases h with hb | rfl
  · exact ne_mark hb hmark
  · exact beq_false_of_ne hquote.symm

namespace Opens

variable {text indent : String}

theorem append (h : Opens text) (next : String) : Opens (text ++ next) := by
  obtain ⟨b, bytes, hb, hbytes⟩ := h
  refine ⟨b, bytes ++ bytesOf next, hb, fun ahead => ?_⟩
  rw [bytesOf_append, List.append_assoc, List.append_assoc]
  exact hbytes _

theorem indented (h : Opens text) (hindent : ∀ c ∈ indent.toList, c = ' ') : Opens (indent ++ text) := by
  obtain ⟨b, bytes, hb, hbytes⟩ := h
  refine ⟨b, bytes, hb, fun ahead => ?_⟩
  rw [bytesOf_append, List.append_assoc, significant_indent hindent]
  exact hbytes _

theorem name (h : IsName text) : Opens text := by
  obtain ⟨b, bytes, hbytes, hb⟩ := h.exists_cons
  refine ⟨b, bytes, .inl hb, fun ahead => ?_⟩
  rw [h.significant, hbytes]
  rfl

theorem quoted (text : String) : Opens (Quoted.write text) := by
  refine ⟨0x22, (text.toList.flatMap Quoted.writeChar).flatMap utf8Bytes ++ [0x22], .inr rfl, fun ahead => ?_⟩
  rw [bytesOf_write]
  exact significant_cons (by decide) _

theorem described (h : Opens text) (layout : SchemaLayout) (hindent : ∀ c ∈ indent.toList, c = ' ')
    (description : Option String) : Opens (SchemaText.descriptionLines layout indent description ++ text) := by
  unfold SchemaText.descriptionLines
  split
  · split
    · next description _ =>
      obtain ⟨bytes, hbytes⟩ := significant_description hindent description
      exact append ⟨0x22, bytes, .inr rfl, hbytes⟩ text
    · rwa [String.empty_append]
  · rwa [String.empty_append]

theorem not_link (h : Opens text) (ahead : List UInt8) : (significant (bytesOf text ++ ahead)).headD 0 ∉ links := by
  obtain ⟨b, bytes, hb, hbytes⟩ := h
  rw [hbytes]
  intro hmem
  have hlink : ∀ mark ∈ links, Byte.isName mark = false ∧ mark ≠ 0x22 := by decide +kernel
  obtain ⟨hname, hquote⟩ := hlink b hmem
  have hne := ne_of_opening hb hname hquote
  rw [beq_self_eq_true] at hne
  cases hne

end Opens

/-! ### Descriptions -/

private theorem readDescription_passes (h : (significant ahead).headD 0 ≠ 0x22) :
    Reads F (Near ahead) readDescription (· = none) (By ahead) := Reads.skipElse h rfl

theorem name_ne_quote {name : String} (h : IsName name) (ahead : List UInt8) :
    (significant (bytesOf name ++ ahead)).headD 0 ≠ 0x22 := by
  obtain ⟨b, bytes, hbytes, hb⟩ := h.exists_cons
  rw [h.significant, hbytes]
  exact ne_of_beq_false (ne_mark hb (by decide))

/-- The lines of a description read as it. -/
theorem readDescriptionLines_reads {layout : SchemaLayout} {indent : String} {description : Option String}
    (hlayout : layout.descriptions = true) (hindent : ∀ c ∈ indent.toList, c = ' ') (h : IsKeptDescription description)
    (hahead : (significant ahead).headD 0 ≠ 0x22) :
    Reads F (Near (bytesOf (SchemaText.descriptionLines layout indent description) ++ ahead)) readDescription
      (· = description) (Near ahead) := by
  cases description with
  | none =>
    rw [SchemaText.descriptionLines, bytesOf_empty, List.nil_append]
    exact (readDescription_passes hahead).mono (fun _ => id) fun _ => By.near
  | some text =>
    rw [SchemaText.descriptionLines, if_pos hlayout]
    refine (readDescription_reads hindent text).mono (fun read hread => ?_) ?_
    · rw [hread, (SchemaText.reread_eq_iff hindent text).2 (h text rfl)]
    · rintro _ rfl
      exact significant_space (by decide) _

/-! ### Arguments and input fields -/

private def defaultBytes : Option Value → List UInt8
  | some v => 0x20 :: 0x3d :: 0x20 :: bytesOf v.literal
  | none => []

private theorem bytesOf_inputValue (value : InputValue) (ahead : List UInt8) :
    bytesOf (SchemaText.inputValue value) ++ ahead =
      bytesOf value.name ++ 0x3a :: 0x20 ::
        (bytesOf value.type.text ++ (defaultBytes value.default ++
          (bytesOf (SchemaText.uses value.directives) ++ ahead))) := by
  unfold SchemaText.inputValue defaultBytes
  cases value.default <;>
    simp only [bytesOf_append, bytesOf_empty, bytesOf_colon, bytesOf_equals, List.append_assoc, List.cons_append,
      List.nil_append]

private theorem Parts.default {marks : List UInt8} (hahead : Parts marks ahead) (hmarks : 0x3d ∉ marks)
    (default : Option Value) : Parts marks (defaultBytes default ++ ahead) := by
  cases default with
  | none => exact hahead
  | some v => exact .spaced (by decide) hmarks

private theorem readDefault_reads {default : Option Value} (h : ∀ v ∈ default, v.Readable)
    (hahead : Parts [0x3d] ahead) :
    Reads F (Near (defaultBytes default ++ ahead)) readDefault (· = default.map Value.readBack) (By ahead) := by
  cases default with
  | none =>
    refine (consume_passes (hahead.ne List.mem_cons_self)).bind fun found hfound => ?_
    subst hfound
    exact .done rfl fun _ => .inr
  | some v =>
    obtain ⟨hlegible, hreread⟩ := h v rfl
    have hspace := near_space (show Byte.isSpace 0x20 by decide) (0x3d :: 0x20 :: (bytesOf v.literal ++ ahead))
    have hread := @readValue_reads F ahead v hlegible hahead.ends fun hnone => by
      rw [hreread] at hnone
      cases hnone
    rw [← near_space (show Byte.isSpace 0x20 by decide)] at hread
    rw [defaultBytes, List.cons_append, List.cons_append, List.cons_append, hspace]
    refine (consume_reads (by decide)).bind fun found hfound => ?_
    subst hfound
    refine hread.here.bind fun w hw => ?_
    rw [hreread] at hw
    obtain rfl := Option.some.inj hw
    exact Reads.loosely (.pure rfl)

/-- An argument or a field of an input object reads back, where its description does. -/
theorem readInputValue_reads {value : InputValue}
    (h : ∀ detail ∈ value.details, detail.Said schema SchemaText.IsKept Value.Readable) {source : List UInt8 → Prop}
    (hdescription : Reads F source readDescription (· = value.description)
      (Near (bytesOf (SchemaText.inputValue value) ++ ahead)))
    (hahead : Parts links ahead) :
    Reads F source (readInputValue schema)
      (·.unplaced TypeRef.unplaced = (Rewriting.readBack.input value).unplaced (TypeRef.seenIn schema)) (By ahead) := by
  obtain ⟨hname, htype, hdefault, huses⟩ := InputValue.forall_details_iff.1 h
  have hnext : Parts [0x21, 0x3d] (bytesOf (SchemaText.uses value.directives) ++ ahead) :=
    (hahead.mono (by decide)).uses (by decide) _
  have hread := @readTypeRef_reads F _ schema _ htype ((hnext.mono (by decide)).default (by decide) value.default)
  rw [← near_space (show Byte.isSpace 0x20 by decide)] at hread
  rw [bytesOf_inputValue] at hdescription
  refine hdescription.bind fun description hdescription => ?_
  refine (discard_reads skipSpace_reads).bind fun _ _ => position_reads.bind fun pos _ => ?_
  rw [IsName.significant hname]
  refine (readName_reads hname (stops_mark (by decide)) "argument name").here.bind fun name hname => ?_
  refine (expect_reads (by decide)).here.bind fun _ _ => hread.here.bind fun type htype => ?_
  refine (readDefault_reads hdefault (hnext.mono (by decide))).near.bind fun default hdefault => ?_
  refine (readUses_reads huses (hahead.mono (by decide))).near.bind fun directives hdirectives => .pure ?_
  simp only [InputValue.unplaced, hdescription, hname, htype, hdefault, hdirectives]
  rfl

private theorem argument_opens {value : InputValue} (h : IsName value.name) : Opens (SchemaText.argument value) := by
  unfold SchemaText.argument
  cases value.description with
  | none =>
    rw [String.empty_append, SchemaText.inputValue, String.append_assoc, String.append_assoc, String.append_assoc]
    exact (Opens.name h).append _
  | some text =>
    rw [String.append_assoc]
    exact (Opens.quoted text).append _

private theorem readArgument_reads {value : InputValue}
    (h : ∀ detail ∈ value.details, detail.Said schema SchemaText.IsKept Value.Readable) (hahead : Parts links ahead) :
    Reads F (Near (bytesOf (SchemaText.argument value) ++ ahead)) (readInputValue schema)
      (·.unplaced TypeRef.unplaced = (Rewriting.readBack.input value).unplaced (TypeRef.seenIn schema)) (By ahead) := by
  refine readInputValue_reads h ?_ hahead
  unfold SchemaText.argument
  cases value.description with
  | none =>
    rw [bytesOf_append, bytesOf_empty, List.nil_append, bytesOf_inputValue]
    exact (readDescription_passes (name_ne_quote (InputValue.forall_details_iff.1 h).1 _)).mono (fun _ => id) fun _ => By.near
  | some text =>
    have hread := @readString_reads F (0x20 :: (bytesOf (SchemaText.inputValue value) ++ ahead)) text
      (stops_mark (by decide))
    rw [bytesOf_append, bytesOf_append, bytesOf_space, List.append_assoc, List.append_assoc, List.singleton_append]
    rw [bytesOf_write] at hread ⊢
    refine Reads.skip (significant_cons (by decide) _) ?_
    rw [if_pos (beq_self_eq_true _)]
    refine hread.bind fun read hread => Reads.done (congrArg some hread) ?_
    rintro _ rfl
    exact significant_space (by decide) _

/-- A member that has the name of no other is not there yet, also where its positions and references differ. -/
theorem not_contains {α : Type} [HasName α] {a b : α} {members read : List α} (hname : HasName.name b = HasName.name a)
    (h : (Members.names read ++ Members.names (a :: members)).Nodup) :
    Members.contains (HasName.name b) read = false ∧
      (Members.names (read ++ [b]) ++ Members.names members).Nodup := by
  have hnames : Members.names (read ++ [b]) ++ Members.names members =
      Members.names read ++ Members.names (a :: members) := by
    simp [Members.names, hname]
  refine ⟨?_, hnames ▸ h⟩
  rw [← Bool.not_eq_true, Members.contains_iff, hname]
  exact fun hmem => List.disjoint_of_nodup_append h hmem List.mem_cons_self

private theorem enumerated_not_link {args : List InputValue} (h : ∀ arg ∈ args, IsName arg.name) (ahead : List UInt8) :
    (significant (enumerated (args.map SchemaText.argument) ahead)).headD 0 ∉ links := by
  cases args with
  | nil =>
    rw [List.map_nil, enumerated_nil, significant_cons (by decide)]
    exact (show (0x29 : UInt8) ∉ links by decide)
  | cons arg args =>
    obtain ⟨next, hnext, _⟩ := enumerated_cons (SchemaText.argument arg) (args.map SchemaText.argument) ahead
    rw [List.map_cons, hnext]
    exact (argument_opens (h arg List.mem_cons_self)).not_link next

private theorem readArgumentDecls_reads (start : Pos) {args read : List InputValue}
    (hargs : ∀ arg ∈ args, ∀ detail ∈ arg.details, detail.Said schema SchemaText.IsKept Value.Readable)
    (hnames : (Members.names read ++ Members.names args).Nodup) :
    Reads F (Near (enumerated (args.map SchemaText.argument) ahead)) (readArgumentDecls schema start read)
      (fun (result : List InputValue) => result.map (InputValue.unplaced TypeRef.unplaced) =
        read.map (InputValue.unplaced TypeRef.unplaced) ++ (args.map Rewriting.readBack.input).map (InputValue.unplaced (TypeRef.seenIn schema)))
      (At ahead) := by
  refine Reads.items (fun args => enumerated (args.map SchemaText.argument) ahead)
    (fun args read => (∀ arg ∈ args, ∀ detail ∈ arg.details, detail.Said schema SchemaText.IsKept Value.Readable) ∧ (Members.names read ++ Members.names args).Nodup)
    (fun args read (result : List InputValue) => result.map (InputValue.unplaced TypeRef.unplaced) =
      read.map (InputValue.unplaced TypeRef.unplaced) ++ (args.map Rewriting.readBack.input).map (InputValue.unplaced (TypeRef.seenIn schema)))
    (fun read _ more => ?_) (fun arg args read h more hmore => ?_) ⟨hargs, hnames⟩
  · rw [List.map_nil, enumerated_nil]
    refine Reads.skip (significant_cons (by decide) _) ?_
    exact (discard_reads readByte_reads).bind fun _ _ => .pure (List.append_nil _).symm
  · obtain ⟨hargs, hnames⟩ := h
    obtain ⟨harg, hrest⟩ := List.forall_mem_cons.1 hargs
    obtain ⟨next, hnext, hends, hsignificant, hlength⟩ :=
      enumerated_cons (SchemaText.argument arg) (args.map SchemaText.argument) ahead
    have hahead : Parts links next := ⟨hends, hsignificant ▸ enumerated_not_link (fun arg harg => (InputValue.forall_details_iff.1 (hrest arg harg)).1) ahead⟩
    obtain ⟨b, bytes, hb, hbytes⟩ := argument_opens (InputValue.forall_details_iff.1 harg).1
    have hread := @readArgument_reads F next schema arg harg hahead
    rw [List.map_cons, hnext, hbytes] at hmore
    rw [List.map_cons, hnext]
    refine Reads.skip (hbytes next) ?_
    rw [ne_of_opening hb (by decide) (by decide), ne_of_opening hb (by decide) (by decide), ← hbytes next]
    refine hread.skipped.bind fun arg' harg' => ?_
    have hname := congrArg InputValue.name harg'
    obtain ⟨hnew, hnames⟩ := @not_contains _ _ arg arg' args read hname hnames
    rw [show Members.contains arg'.name read = false from hnew]
    refine (hmore (read ++ [arg']) _ ⟨hrest, hnames⟩ fun left hleft => ⟨?_, ?_⟩).mono (fun result hresult => ?_)
      fun _ => id
    · exact hleft.near.trans hsignificant
    · have hle := hleft.length_le
      rw [List.length_cons, List.length_append]
      omega
    · rw [hresult, List.map_append, List.map_singleton, harg', List.append_assoc, List.map_cons, List.map_cons,
        List.singleton_append]

/-- The text of declarations of arguments reads as these. -/
theorem readOptionalArgumentDecls_reads {args : List InputValue}
    (hargs : ∀ arg ∈ args, ∀ detail ∈ arg.details, detail.Said schema SchemaText.IsKept Value.Readable)
    (hdistinct : Members.Distinct args) (hahead : (significant ahead).headD 0 ≠ 0x28) :
    Reads F (Near (bytesOf (SchemaText.argumentDecls args) ++ ahead)) (readOptionalArgumentDecls schema)
      (·.map (InputValue.unplaced TypeRef.unplaced) = (args.map Rewriting.readBack.input).map (InputValue.unplaced (TypeRef.seenIn schema)))
      (By ahead) := by
  cases args with
  | nil =>
    rw [show SchemaText.argumentDecls [] = "" from rfl, bytesOf_empty]
    exact Reads.skipElse hahead rfl
  | cons arg args =>
    rw [SchemaText.argumentDecls, bytesOf_enclosed]
    refine Reads.skip (significant_cons (by decide) _) ?_
    refine position_reads.bind fun start _ => (discard_reads readByte_reads).bind fun _ _ => ?_
    exact (@readArgumentDecls_reads F ahead schema start (arg :: args) [] hargs hdistinct).here.loosely

/-! ### Bodies -/

/-- Something is read from its lines, up to the end of the last one. -/
structure ReadsLines {α : Type} (F : Prop) (p : Parser α) (lines : String) (P : α → Prop) : Prop where
  opens : ∃ text, lines = text ++ "\n" ∧ Opens text
  reads : ∀ ahead, Parts links (0x0a :: ahead) → Reads F (Near (bytesOf lines ++ ahead)) p P (By (0x0a :: ahead))

namespace ReadsLines

variable {α : Type} {p : Parser α} {lines : String} {P : α → Prop}

theorem not_link (h : ReadsLines F p lines P) (ahead : List UInt8) :
    (significant (bytesOf lines ++ ahead)).headD 0 ∉ links := by
  obtain ⟨text, htext, hopens⟩ := h.opens
  rw [htext]
  exact (hopens.append _).not_link ahead

/-- The lines start with a byte that is no mark, and the end of the last one lies behind it. -/
theorem first (h : ReadsLines F p lines P) (ahead : List UInt8) :
    ∃ b bytes, (Byte.isName b = true ∨ b = 0x22) ∧ significant (bytesOf lines ++ ahead) = b :: bytes ∧
      (0x0a :: ahead).length ≤ bytes.length := by
  obtain ⟨text, htext, b, bytes, hb, hbytes⟩ := h.opens
  refine ⟨b, bytes ++ 0x0a :: ahead, hb, ?_, ?_⟩
  · rw [htext, bytesOf_append, bytesOf_newline, List.append_assoc]
    exact hbytes _
  · rw [List.length_append]
    exact Nat.le_add_left _ _

end ReadsLines

section Body

variable {α : Type} {member : Parser α} {shown : α → String} {kept seen : α → α}

/-- What is ahead where members are left, and then the closing brace. -/
private def memberLines (shown : α → String) (members : List α) (ahead : List UInt8) : List UInt8 :=
  bytesOf (String.join (members.map shown)) ++ 0x7d :: ahead

private theorem memberLines_not_link {members : List α}
    (hlines : ∀ a ∈ members, ReadsLines F member (shown a) (kept · = seen a)) (ahead : List UInt8) :
    (significant (memberLines shown members ahead)).headD 0 ∉ links := by
  unfold memberLines
  cases members with
  | nil =>
    rw [List.map_nil, String.join_nil, bytesOf_empty, List.nil_append, significant_cons (by decide)]
    exact (show (0x7d : UInt8) ∉ links by decide)
  | cons a members =>
    rw [List.map_cons, String.join_cons, bytesOf_append, List.append_assoc]
    exact (hlines a List.mem_cons_self).not_link _

variable [HasName α] {place : α → Pos} {duplicate : String → SyntaxCause} {owner : String} {start : Pos}

private theorem readMembers_reads (hname : ∀ a b, kept b = seen a → HasName.name b = HasName.name a)
    {members read : List α} (hlines : ∀ a ∈ members, ReadsLines F member (shown a) (kept · = seen a))
    (hnames : (Members.names read ++ Members.names members).Nodup) :
    Reads F (Near (memberLines shown members ahead)) (readMembers member place duplicate owner start read)
      (fun (result : List α) => result.map kept = read.map kept ++ members.map seen) (At ahead) := by
  refine Reads.items (fun members => memberLines shown members ahead)
    (fun members read => (∀ a ∈ members, ReadsLines F member (shown a) (kept · = seen a)) ∧
      (Members.names read ++ Members.names members).Nodup)
    (fun members read (result : List α) => result.map kept = read.map kept ++ members.map seen)
    (fun read _ more => ?_) (fun a members read h more hmore => ?_) ⟨hlines, hnames⟩
  · have hsource : memberLines shown [] ahead = 0x7d :: ahead := by
      rw [memberLines, List.map_nil, String.join_nil, bytesOf_empty, List.nil_append]
    rw [hsource]
    refine (consume_reads (by decide)).bind fun found hfound => ?_
    subst hfound
    exact .pure (List.append_nil _).symm
  · obtain ⟨hlines, hnames⟩ := h
    obtain ⟨hline, hrest⟩ := List.forall_mem_cons.1 hlines
    have hsource : memberLines shown (a :: members) ahead = bytesOf (shown a) ++ memberLines shown members ahead := by
      rw [memberLines, List.map_cons, String.join_cons, bytesOf_append, List.append_assoc]
      rfl
    have hread := hline.reads (memberLines shown members ahead)
      (.space (by decide) (memberLines_not_link hrest ahead))
    obtain ⟨b, bytes, hb, hfirst, hlength⟩ := hline.first (memberLines shown members ahead)
    rw [hsource, hfirst] at hmore
    rw [hsource]
    refine (consume_passes ?_).bind fun found hfound => ?_
    · rw [hfirst]
      exact ne_of_beq_false (ne_of_opening hb (by decide) (by decide))
    subst hfound
    refine (Reads.skip hfirst ?_).skipped
    rw [ne_of_opening hb (by decide) (by decide), ← hfirst]
    refine hread.skipped.bind fun a' ha' => ?_
    obtain ⟨hnew, hnames⟩ := not_contains (hname a a' ha') hnames
    rw [hnew]
    refine (hmore (read ++ [a']) _ ⟨hrest, hnames⟩ fun left hleft => ⟨?_, ?_⟩).mono (fun result hresult => ?_)
      fun _ => id
    · exact hleft.near.trans (significant_space (by decide) _)
    · exact Nat.lt_succ_of_le (hleft.length_le.trans hlength)
    · rw [hresult, List.map_append, List.map_singleton, ha', List.append_assoc, List.map_cons, List.singleton_append]

/-- A body reads back, if its members do. -/
theorem readBody_reads (kept seen : α → α) (hkept : ∀ a, HasName.name (kept a) = HasName.name a)
    (hseen : ∀ a, HasName.name (seen a) = HasName.name a) {members : List α}
    (hlines : ∀ a ∈ members, ReadsLines F member (shown a) (kept · = seen a)) (hdistinct : Members.Distinct members) :
    Reads F (Near (bytesOf (SchemaText.body (members.map shown)) ++ ahead))
      (readBody member place duplicate owner start) (·.map kept = members.map seen) (At (0x0a :: ahead)) := by
  have hsource : bytesOf (SchemaText.body (members.map shown)) ++ ahead =
      0x20 :: 0x7b :: 0x0a :: memberLines shown members (0x0a :: ahead) := by
    rw [SchemaText.body, bytesOf_append, bytesOf_append, bytesOf_openBody, bytesOf_closeBody, List.append_assoc,
      List.append_assoc]
    rfl
  have hname (a b : α) (h : kept b = seen a) : HasName.name b = HasName.name a := by
    rw [← hkept b, h, hseen]
  have hread := @readMembers_reads F (0x0a :: ahead) α member shown kept seen _ place duplicate owner start hname
    members [] hlines hdistinct
  rw [← near_space (show Byte.isSpace 0x0a by decide)] at hread
  rw [hsource, near_space (by decide)]
  refine (consume_reads (by decide)).bind fun found hfound => ?_
  subst hfound
  exact hread.here

end Body

/-! ### Members -/

section Lines

variable {layout : SchemaLayout} (hlayout : layout.descriptions = true)

private theorem spaces : ∀ c ∈ "  ".toList, c = ' ' := by simp

include hlayout

private theorem readMemberDescription_reads {description : Option String} (h : IsKeptDescription description)
    {name : String} (hname : IsName name) :
    Reads F (Near (bytesOf (SchemaText.descriptionLines layout "  " description) ++
        (bytesOf "  " ++ (bytesOf name ++ ahead))))
      readDescription (· = description) (Near (bytesOf name ++ ahead)) := by
  have hindent := significant_indent spaces (bytesOf name ++ ahead)
  refine (readDescriptionLines_reads hlayout spaces h ?_).mono (fun _ => id) fun left hleft => hleft.trans hindent
  rw [hindent]
  exact name_ne_quote hname ahead

theorem symbol_reads {value : EnumValue}
    (h : ∀ detail ∈ value.details, detail.Said schema SchemaText.IsKept Value.Readable) :
    ReadsLines F readSymbol (SchemaText.symbol layout value)
      (·.unplaced = (Rewriting.readBack.symbol value).unplaced) := by
  obtain ⟨hname, hdescription, huses⟩ := EnumValue.forall_details_iff.1 h
  refine ⟨⟨_, rfl, ?_⟩, fun ahead hahead => ?_⟩
  · simp only [String.append_assoc]
    exact (((Opens.name hname).append _).indented spaces).described layout spaces _
  · rw [SchemaText.symbol]
    simp only [bytesOf_append, bytesOf_newline, List.append_assoc, List.singleton_append]
    have hnext : Parts [] (bytesOf (SchemaText.uses value.directives) ++ 0x0a :: ahead) :=
      (hahead.mono (List.nil_subset _)).uses List.not_mem_nil _
    refine (readMemberDescription_reads hlayout hdescription hname).bind fun description hdescription => ?_
    refine (discard_reads skipSpace_reads).bind fun _ _ => position_reads.bind fun pos _ => ?_
    rw [IsName.significant hname]
    refine (readName_reads hname hnext.ends.name "enum value").here.bind fun name hname => ?_
    refine (readUses_reads huses (hahead.mono (by decide))).here.bind fun directives hdirectives => .pure ?_
    simp only [EnumValue.unplaced, hdescription, hname, hdirectives]
    rfl

theorem inputField_reads {field : InputValue}
    (h : ∀ detail ∈ field.fieldDetails, detail.Said schema SchemaText.IsKept Value.Readable) :
    ReadsLines F (readInputValue schema) (SchemaText.inputField layout field)
      (·.unplaced TypeRef.unplaced = (Rewriting.readBack.input field).unplaced (TypeRef.seenIn schema)) := by
  obtain ⟨hdescription, h⟩ := InputValue.forall_fieldDetails_iff.1 h
  have hname := (InputValue.forall_details_iff.1 h).1
  refine ⟨⟨_, rfl, ?_⟩, fun ahead hahead => ?_⟩
  · simp only [SchemaText.inputValue, String.append_assoc]
    exact (((Opens.name hname).append _).indented spaces).described layout spaces _
  · rw [SchemaText.inputField]
    simp only [bytesOf_append, bytesOf_newline, List.append_assoc, List.singleton_append]
    refine readInputValue_reads h ?_ hahead
    rw [bytesOf_inputValue]
    exact readMemberDescription_reads hlayout hdescription hname

theorem field_reads {field : FieldDef}
    (h : ∀ detail ∈ field.details, detail.Said schema SchemaText.IsKept Value.Readable)
    (hdistinct : Members.Distinct field.args) :
    ReadsLines F (readField schema) (SchemaText.field layout field)
      (·.unplaced TypeRef.unplaced = (Rewriting.readBack.field field).unplaced (TypeRef.seenIn schema)) := by
  obtain ⟨hname, htype, hdescription, hargs, huses⟩ := FieldDef.forall_details_iff.1 h
  refine ⟨⟨_, rfl, ?_⟩, fun ahead hahead => ?_⟩
  · simp only [String.append_assoc]
    exact (((Opens.name hname).append _).indented spaces).described layout spaces _
  · rw [SchemaText.field]
    simp only [bytesOf_append, bytesOf_newline, bytesOf_colon, List.append_assoc, List.cons_append, List.nil_append]
    have hnext : Parts [0x21] (bytesOf (SchemaText.uses field.directives) ++ 0x0a :: ahead) :=
      (hahead.mono (by decide)).uses (by decide) _
    have hread := @readTypeRef_reads F _ schema _ htype hnext
    rw [← near_space (show Byte.isSpace 0x20 by decide)] at hread
    refine (readMemberDescription_reads hlayout hdescription hname).bind fun description hdescription => ?_
    refine (discard_reads skipSpace_reads).bind fun _ _ => position_reads.bind fun pos _ => ?_
    rw [IsName.significant hname]
    have hstop : Stops Byte.isName (bytesOf (SchemaText.argumentDecls field.args) ++ 0x3a :: 0x20 ::
        (bytesOf field.type.text ++ (bytesOf (SchemaText.uses field.directives) ++ 0x0a :: ahead))) :=
      stops_enclosed _ _ (stops_mark (by decide))
    refine (readName_reads hname hstop "field name").here.bind fun name hname => ?_
    refine (readOptionalArgumentDecls_reads hargs hdistinct ?_).here.bind fun args hargs => ?_
    · rw [significant_cons (by decide)]
      exact (show (0x3a : UInt8) ≠ 0x28 by decide)
    refine (expect_reads (by decide)).near.bind fun _ _ => hread.here.bind fun type htype => ?_
    refine (readUses_reads huses (hahead.mono (by decide))).near.bind fun directives hdirectives => .pure ?_
    simp only [FieldDef.unplaced, hdescription, hname, hargs, htype, hdirectives]
    rfl

end Lines

end Parser

end GraphQL
