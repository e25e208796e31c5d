import GraphQL.Proofs.Schema.Writable

/-!
# References and uses read back

References to types, arguments with their values and uses of directives read back from what is written of them
(`Parser.readTypeRef_reads`, `Parser.readUses_reads`). A part may be missing where it stands last, so a lemma tells which
marks must not come next; `Parser.Parts` says that none of them does.
-/

namespace GraphQL

namespace Parser

variable {F : Prop} {ahead : List UInt8} {schema : Schema}

/-! ### What comes next -/

theorem Ends.headD (h : Ends ahead) : Byte.endsNumber (ahead.headD 0) = true := by
  cases ahead with
  | nil => decide
  | cons b rest => exact h b rfl

/-- What is ahead ends a name or a literal, and the first byte that is not skipped is none of the given ones. -/
structure Parts (marks : List UInt8) (ahead : List UInt8) : Prop where
  ends : Ends ahead
  next : (significant ahead).headD 0 ∉ marks

namespace Parts

variable {marks : List UInt8}

theorem mono {fewer : List UInt8} (h : Parts marks ahead) (hsubset : fewer ⊆ marks) : Parts fewer ahead where
  ends := h.ends
  next := fun hmem => h.next (hsubset hmem)

theorem ne {mark : UInt8} (h : Parts marks ahead) (hmark : mark ∈ marks) : (significant ahead).headD 0 ≠ mark :=
  fun heq => h.next (heq ▸ hmark)

theorem nil (h : 0 ∉ marks) : Parts marks [] where
  ends := nofun
  next := h

/-- Behind a space, what comes next decides. -/
theorem space {b : UInt8} (hb : Byte.isSpace b = true) (h : (significant ahead).headD 0 ∉ marks) :
    Parts marks (b :: ahead) where
  ends c hc := by
    cases hc
    simp [Byte.endsNumber, hb]
  next := by rwa [significant_space hb]

theorem spaced {b : UInt8} (hb : Byte.isSignificant b = true) (h : b ∉ marks) : Parts marks (0x20 :: b :: ahead) := by
  refine .space (by decide) ?_
  rwa [significant_cons hb]

/-- A closing bracket, or another byte that ends numbers and is not skipped. -/
theorem mark {b : UInt8} (hb : Byte.endsNumber b = true) (hsignificant : Byte.isSignificant b = true)
    (h : b ∉ marks) : Parts marks (b :: ahead) where
  ends c hc := by
    cases hc
    exact hb
  next := by rwa [significant_cons hsignificant]

end Parts

/-! ### References -/

/-- The mark of a type that is marked non-null. -/
private def markOf (marked : Bool) : List UInt8 := if marked then [0x21] else []

/-- The type with its mark. -/
private def withMark (marked : Bool) (type : TypeRef) : TypeRef := if marked then .nonNull type else type

private theorem readNonNull_reads (marked : Bool) (type : TypeRef) (hahead : Parts [0x21] ahead) :
    Reads F (Near (markOf marked ++ ahead)) (readNonNull type) (· = withMark marked type) (By ahead) := by
  cases marked with
  | false => exact Reads.skipElse (hahead.ne List.mem_cons_self) rfl
  | true =>
    refine Reads.skip (significant_cons (by decide) _) ?_
    refine (discard_reads readByte_reads).bind fun _ _ => peek_reads.bind fun next hnext => ?_
    have hnot : (next == 0x21) = false := by
      rw [beq_eq_false_iff_ne]
      rintro rfl
      have hends : Byte.endsNumber (ahead.headD 0) = true := hahead.ends.headD
      rw [show ahead.headD 0 = 0x21 from hnext.symm] at hends
      exact absurd hends (by decide)
    rw [hnot]
    exact Reads.loosely (.pure rfl)

private theorem Parts.withMark (marked : Bool) (hahead : Parts [0x21] ahead) :
    Stops Byte.isName (markOf marked ++ ahead) := by
  cases marked with
  | false => exact hahead.ends.name
  | true =>
    intro b hb
    cases hb
    decide

private theorem readTypeRef_word {name : String} (hname : IsName name) (marked : Bool) (hahead : Parts [0x21] ahead) :
    Reads F (Near (bytesOf name ++ (markOf marked ++ ahead))) (readTypeRef schema)
      (·.unplaced = withMark marked (namedRef schema name .start)) (By ahead) := by
  obtain ⟨b, bytes, hbytes, hb⟩ := hname.exists_cons
  have hbracket : (b == 0x5b) = false := by
    rw [beq_eq_false_iff_ne]
    rintro rfl
    exact absurd hb (by decide)
  have htoken := @readToken_reads F (markOf marked ++ ahead) name hname (hahead.withMark marked)
  have hsource := hname.significant (markOf marked ++ ahead)
  rw [hbytes] at htoken hsource ⊢
  refine Reads.fix 0 (fun _ _ => Nat.zero_le _) fun more _ => Reads.skip hsource ?_
  refine position_reads.bind fun pos _ => ?_
  rw [hbracket]
  refine htoken.bind fun name' hname' => ?_
  subst hname'
  have hempty : name'.isEmpty = false := by simpa using hname.1
  rw [hempty]
  refine (readNonNull_reads marked _ hahead).here.mono (fun type htype => ?_) fun _ => id
  subst htype
  cases marked with
  | false => exact TypeRef.unplaced_namedRef schema name' pos
  | true => exact congrArg TypeRef.nonNull (TypeRef.unplaced_namedRef schema name' pos)

/-- What is read as a type that is not marked, followed by a mark or not. -/
private theorem readTypeRef_marked {type : TypeRef} (h : type.Writable) (marked : Bool)
    (hmarked : marked = true → type.isNonNull = false) (hahead : Parts [0x21] ahead) :
    Reads F (Near (bytesOf type.text ++ (markOf marked ++ ahead))) (readTypeRef schema)
      (·.unplaced = withMark marked (type.seenIn schema)) (By ahead) := by
  induction h generalizing marked ahead with
  | @named name hname => exact readTypeRef_word hname marked hahead
  | @unresolved name pos hname => exact readTypeRef_word hname marked hahead
  | @nonNull inner _ hinner ih =>
    have hplain : marked = false := by
      cases marked with
      | false => rfl
      | true => cases hmarked rfl
    subst hplain
    have hinnerReads := @ih ahead true (fun _ => hinner) hahead
    rw [TypeRef.text, bytesOf_append, bytesOf_exclamation, List.append_assoc]
    exact hinnerReads
  | @list item _ ih =>
    rw [TypeRef.text, bytesOf_append, bytesOf_append, bytesOf_openBracket, bytesOf_closeBracket, List.append_assoc,
      List.append_assoc]
    have hsource := significant_cons (show Byte.isSignificant 0x5b by decide)
      (bytesOf item.text ++ 0x5d :: (markOf marked ++ ahead))
    refine Reads.fix _ (fun left hleft => Near.length_le hleft) fun more hmore => Reads.skip hsource ?_
    refine position_reads.bind fun pos _ => (discard_reads readByte_reads).bind fun _ _ => ?_
    have hitem := @ih (0x5d :: (markOf marked ++ ahead)) false (fun h => nomatch h)
      (.mark (by decide) (by decide) (by decide))
    refine Reads.bind (hmore _ _ _ ?_ hitem.here) fun type htype => ?_
    · rintro _ rfl
      exact Nat.lt_of_lt_of_eq (Nat.lt_succ_self _) (congrArg List.length hsource).symm
    · refine (expect_reads (by decide)).near.bind fun _ _ => ?_
      refine (readNonNull_reads marked _ hahead).here.mono (fun type' htype' => ?_) fun _ => id
      subst htype'
      cases marked with
      | false => exact congrArg TypeRef.list htype
      | true => exact congrArg (fun type => TypeRef.nonNull (TypeRef.list type)) htype

/-- The text of a type reads as the type. -/
theorem readTypeRef_reads {type : TypeRef} (h : type.Writable) (hahead : Parts [0x21] ahead) :
    Reads F (Near (bytesOf type.text ++ ahead)) (readTypeRef schema) (·.unplaced = type.seenIn schema) (By ahead) :=
  readTypeRef_marked h false (fun h => nomatch h) hahead

theorem readNamedRef_reads {type : TypeRef} (h : type.IsWord) (hahead : Stops Byte.isName ahead) :
    Reads F (Near (bytesOf type.text ++ ahead)) (readNamedRef schema) (·.unplaced = type.seenIn schema) (At ahead) := by
  obtain ⟨name, hown, hname⟩ := h
  have htext : type.text = name ∧ type.seenIn schema = namedRef schema name .start := by
    cases type with
    | named _ | unresolved _ _ => cases hown; exact ⟨rfl, rfl⟩
    | list _ | nonNull _ => cases hown
  rw [htext.1, htext.2]
  refine (discard_reads skipSpace_reads).bind fun _ _ => position_reads.bind fun pos _ => ?_
  rw [hname.significant]
  refine (readName_reads hname hahead "type name").here.bind fun name' hname' => .pure ?_
  subst hname'
  exact TypeRef.unplaced_namedRef schema name' pos

/-! ### Arguments -/

/-- What is ahead where texts are left with commas between them, and then the closing parenthesis. -/
def enumerated (texts : List String) (ahead : List UInt8) : List UInt8 :=
  bytesOf (SchemaText.join ", " texts) ++ 0x29 :: ahead

theorem enumerated_nil (ahead : List UInt8) : enumerated [] ahead = 0x29 :: ahead := by
  rw [enumerated, SchemaText.join, String.intercalate_nil, bytesOf_empty]
  rfl

theorem enumerated_cons (text : String) (texts : List String) (ahead : List UInt8) :
    ∃ next, enumerated (text :: texts) ahead = bytesOf text ++ next ∧ Ends next ∧
      significant next = significant (enumerated texts ahead) ∧ (enumerated texts ahead).length ≤ next.length := by
  cases texts with
  | nil =>
    refine ⟨0x29 :: ahead, ?_, ?_, ?_⟩
    · rw [enumerated, SchemaText.join, String.intercalate_singleton]
    · intro b hb
      cases hb
      decide
    · rw [enumerated_nil]
      exact ⟨rfl, Nat.le_refl _⟩
  | cons text' texts =>
    refine ⟨0x2c :: 0x20 :: enumerated (text' :: texts) ahead, ?_, ?_, ?_, ?_⟩
    · rw [enumerated, SchemaText.join, String.intercalate_cons_cons, bytesOf_append, bytesOf_append,
        bytesOf_comma, List.append_assoc, List.append_assoc]
      rfl
    · intro b hb
      cases hb
      decide
    · exact (significant_space (by decide) _).trans (significant_space (by decide) _)
    · exact Nat.le_add_right _ 2

/-- Items between parentheses, where there are some. -/
theorem bytesOf_enclosed {α : Type} (shown : α → String) (a : α) (items : List α) (ahead : List UInt8) :
    bytesOf (if (a :: items).isEmpty then "" else "(" ++ SchemaText.join ", " ((a :: items).map shown) ++ ")") ++
      ahead = 0x28 :: enumerated ((a :: items).map shown) ahead := by
  rw [List.isEmpty_cons, if_neg Bool.false_ne_true, bytesOf_append, bytesOf_append, bytesOf_openParenthesis,
    bytesOf_closeParenthesis, List.append_assoc, List.append_assoc]
  rfl

/-- The first byte of a name is no mark. -/
theorem ne_mark {b mark : UInt8} (hb : Byte.isName b) (hmark : Byte.isName mark = false) :
    (b == mark) = false := by
  rw [beq_eq_false_iff_ne]
  rintro rfl
  rw [hb] at hmark
  cases hmark

theorem stops_mark {p : UInt8 → Bool} {b : UInt8} (h : p b = false) : Stops p (b :: ahead) := by
  intro c hc
  cases hc
  exact h

theorem stops_enclosed {α : Type} (shown : α → String) (items : List α) (hahead : Stops Byte.isName ahead) :
    Stops Byte.isName (bytesOf (if items.isEmpty then "" else
      "(" ++ SchemaText.join ", " (items.map shown) ++ ")") ++ ahead) := by
  cases items with
  | nil =>
    rw [List.isEmpty_nil, if_pos rfl, bytesOf_empty]
    exact hahead
  | cons a items =>
    rw [bytesOf_enclosed]
    exact stops_mark (by decide)

private theorem readArguments_reads (start : Pos) {args read : List (String × Value)}
    (hargs : ∀ arg ∈ args, IsName arg.1 ∧ arg.2.Readable) (hkeys : (Entries.keys read ++ Entries.keys args).Nodup) :
    Reads F (Near (enumerated (args.map fun (name, v) => name ++ ": " ++ v.literal) ahead)) (readArguments start read)
      (· = read ++ readBackArgs args) (At ahead) := by
  refine Reads.items (fun args => enumerated (args.map fun (name, v) => name ++ ": " ++ v.literal) ahead)
    (fun args read => (∀ arg ∈ args, IsName arg.1 ∧ arg.2.Readable) ∧ (Entries.keys read ++ Entries.keys args).Nodup)
    (fun args read result => result = read ++ readBackArgs args) (fun read _ more => ?_) (fun arg args read h more hmore => ?_)
    ⟨hargs, hkeys⟩
  · rw [List.map_nil, enumerated_nil]
    refine Reads.skip (significant_cons (by decide) _) ?_
    exact (discard_reads readByte_reads).bind fun _ _ => .pure (List.append_nil read).symm
  · obtain ⟨hargs, hkeys⟩ := h
    obtain ⟨⟨hname, hvalue⟩, hrest⟩ := List.forall_mem_cons.1 hargs
    obtain ⟨name, v⟩ := arg
    obtain ⟨next, hnext, hends, hsignificant, hlength⟩ := enumerated_cons (name ++ ": " ++ v.literal)
      (args.map fun (name, v) => name ++ ": " ++ v.literal) ahead
    rw [List.map_cons] at hmore ⊢
    rw [hnext] at hmore ⊢
    rw [bytesOf_append, bytesOf_append, bytesOf_colon, List.append_assoc, List.append_assoc] at hmore ⊢
    have hsource := hname.significant ([0x3a, 0x20] ++ (bytesOf v.literal ++ next))
    obtain ⟨b, bytes, hbytes, hb⟩ := hname.exists_cons
    have hread := @readName_reads F ([0x3a, 0x20] ++ (bytesOf v.literal ++ next)) name hname (stops_mark (by decide))
      "argument name"
    rw [hsource] at hmore
    rw [hbytes] at hsource hread hmore ⊢
    refine Reads.skip hsource ?_
    rw [ne_mark hb (by decide), ne_mark hb (by decide)]
    refine position_reads.bind fun pos _ => hread.here.bind fun name' hname' => ?_
    subst hname'
    refine (expect_reads (by decide)).here.bind fun _ _ => ?_
    have hliteral := @readValue_reads F next v hvalue.legible hends fun hnone => by
      rw [hvalue.reread] at hnone
      cases hnone
    rw [← near_space (show Byte.isSpace 0x20 by decide)] at hliteral
    refine hliteral.here.bind fun w hw => ?_
    rw [hvalue.reread] at hw
    obtain rfl := Option.some.inj hw
    have hnew : Entries.contains name' read = false := by
      unfold Entries.contains
      rw [Entries.get?_eq_none_iff.2 fun hmem => ?_]
      · rfl
      · exact List.disjoint_of_nodup_append hkeys hmem List.mem_cons_self
    rw [hnew]
    refine (hmore (read ++ [(name', v.readBack)]) _ ⟨hrest, ?_⟩ ?_).mono ?_ fun _ => id
    · rwa [Entries.keys_append, List.append_assoc]
    · rintro _ rfl
      refine ⟨hsignificant, ?_⟩
      simp only [List.length_cons, List.length_append]
      omega
    · rintro _ rfl
      exact List.append_assoc _ _ _

private theorem readOptionalArguments_reads {args : List (String × Value)}
    (hargs : ∀ arg ∈ args, IsName arg.1 ∧ arg.2.Readable) (hkeys : (Entries.keys args).Nodup)
    (hahead : (significant ahead).headD 0 ≠ 0x28) :
    Reads F (Near (bytesOf (SchemaText.arguments args) ++ ahead)) readOptionalArguments (· = readBackArgs args)
      (By ahead) := by
  cases args with
  | nil =>
    rw [SchemaText.arguments, List.isEmpty_nil, if_pos rfl, bytesOf_empty]
    exact Reads.skipElse hahead rfl
  | cons arg args =>
    rw [SchemaText.arguments, bytesOf_enclosed]
    refine Reads.skip (significant_cons (by decide) _) ?_
    refine position_reads.bind fun start _ => (discard_reads readByte_reads).bind fun _ _ => ?_
    exact (@readArguments_reads F ahead start (arg :: args) [] hargs hkeys).here.loosely

/-! ### Uses of directives -/

private theorem bytesOf_uses (use : DirectiveUse) (uses : List DirectiveUse) (ahead : List UInt8) :
    bytesOf (SchemaText.uses (use :: uses)) ++ ahead = 0x20 :: 0x40 :: (bytesOf use.name ++
      (bytesOf (SchemaText.arguments use.args) ++ (bytesOf (SchemaText.uses uses) ++ ahead))) := by
  rw [SchemaText.uses, List.map_cons, String.join_cons, bytesOf_append, bytesOf_append, bytesOf_append, bytesOf_at]
  simp only [SchemaText.uses, List.append_assoc, List.cons_append, List.nil_append]

/-- Uses of directives keep what is in front of them apart from what is behind them. -/
theorem Parts.uses {marks : List UInt8} (hahead : Parts marks ahead) (hmarks : 0x40 ∉ marks)
    (uses : List DirectiveUse) : Parts marks (bytesOf (SchemaText.uses uses) ++ ahead) := by
  cases uses with
  | nil =>
    rw [show SchemaText.uses [] = "" from rfl, bytesOf_empty]
    exact hahead
  | cons use uses =>
    rw [bytesOf_uses]
    exact .spaced (by decide) hmarks

/-- The text of uses of directives reads as these. -/
theorem readUses_reads {uses : List DirectiveUse}
    (h : ∀ use ∈ uses, (Detail.use use).Said schema SchemaText.IsKept Value.Readable)
    (hahead : Parts [0x28, 0x40] ahead) :
    Reads F (Near (bytesOf (SchemaText.uses uses) ++ ahead)) readUses
      (·.map DirectiveUse.unplaced = (uses.map Rewriting.readBack.use).map DirectiveUse.unplaced) (By ahead) := by
  refine Reads.each (fun uses => bytesOf (SchemaText.uses uses) ++ ahead)
    (fun uses => ∀ use ∈ uses, (Detail.use use).Said schema SchemaText.IsKept Value.Readable)
    (fun uses (read : List DirectiveUse) =>
      read.map DirectiveUse.unplaced = (uses.map Rewriting.readBack.use).map DirectiveUse.unplaced)
    (fun _ more => ?_) (fun use uses h more hmore => ?_) h
  · rw [show SchemaText.uses [] = "" from rfl, bytesOf_empty]
    exact Reads.skipElse (hahead.ne (show 0x40 ∈ [0x28, 0x40] by decide)) rfl
  · obtain ⟨⟨hname, hdistinct, hargs⟩, huses⟩ := List.forall_mem_cons.1 h
    have hnext : Parts [0x28] (bytesOf (SchemaText.uses uses) ++ ahead) :=
      (hahead.mono (by decide)).uses (by decide) uses
    rw [bytesOf_uses] at hmore ⊢
    have hsource := (significant_space (show Byte.isSpace 0x20 by decide) _).trans
      (significant_cons (show Byte.isSignificant 0x40 by decide) (bytesOf use.name ++
        (bytesOf (SchemaText.arguments use.args) ++ (bytesOf (SchemaText.uses uses) ++ ahead))))
    rw [hsource] at hmore
    refine Reads.skip hsource ?_
    refine position_reads.bind fun pos _ => (discard_reads readByte_reads).bind fun _ _ => ?_
    refine (readName_reads hname (stops_enclosed _ _ hnext.ends.name) "directive name").here.bind fun name hread => ?_
    subst hread
    refine (readOptionalArguments_reads hargs hdistinct (hnext.ne List.mem_cons_self)).here.bind fun args hread => ?_
    subst hread
    refine (hmore _ huses fun left hleft => ⟨hleft.near, ?_⟩).bind fun read hread => .pure ?_
    · have hlength := hleft.length_le
      simp only [List.length_cons, List.length_append] at hlength ⊢
      omega
    · rw [List.map_cons, List.map_cons, List.map_cons, hread]
      rfl

end Parser

end GraphQL
