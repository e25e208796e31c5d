import GraphQL.Proofs.Request.Respaced

/-!
# Whole sources

What the readers of schema texts and of requests do with a source: they get to an end of their own, never by a
repetition that has stopped to consume (`Schema.reads_end`); they take no notice of its layout
(`Schema.reads_respaced`); and what they have read is the whole source, or all of it in front of a byte zero
(`Schema.reads_pieces`).
-/

namespace GraphQL

/-! ### Ends -/

namespace Parser

variable {α α' : Type} {strict : Bool} {p : Parser α} {q : Parser α'} {same : α → α' → Prop} {after : α → Ahead}

/-- Parsers in step can be run on sources of any length. -/
theorem InStep.run (h : ∀ room, InStep strict room Respaced p q same after) {s t : Scanner}
    (hst : Respaced s.rest t.rest) : Agree strict same after s t (p s) (q t) :=
  h (s.rest.length + 1, t.rest.length + 1) s t hst (Nat.lt_succ_self _) (Nat.lt_succ_self _)

end Parser

private theorem exists_error_of_mapM {α β ε : Type} {f : α → Except ε β} {as : List α} {e : ε}
    (h : as.mapM f = .error e) : ∃ a ∈ as, f a = .error e := by
  induction as with
  | nil => cases h
  | cons a as ih =>
    rw [List.mapM_cons] at h
    cases ha : f a with
    | error e' =>
      rw [ha] at h
      cases h
      exact ⟨a, List.mem_cons_self, ha⟩
    | ok b =>
      cases has : as.mapM f with
      | error e' =>
        rw [ha, has] at h
        cases h
        obtain ⟨a, hmem, ha⟩ := ih has
        exact ⟨a, List.mem_cons_of_mem _ hmem, ha⟩
      | ok bs =>
        rw [ha, has] at h
        cases h

/-- What is wrong with definitions is an operation without a name that is not alone, or a fragment that is not there. -/
theorem Document.ofDefinitions_error {definitions : List Definition} {e : SyntaxError}
    (h : ofDefinitions definitions = .error e) :
    (∃ op, Definition.operation op ∈ definitions ∧ e = ⟨.anonymousNotAlone, op.pos⟩) ∨
      ∃ mention ∈ Definition.fragmentNames definitions, e = ⟨.undefinedFragment mention.1, mention.2⟩ := by
  have hfragments {find : String × Pos → Except SyntaxError Fragment} {mentions : List (String × Pos)}
      (hfind : ∀ mention e, find mention = .error e → e = ⟨.undefinedFragment mention.1, mention.2⟩)
      (h : mentions.mapM find = .error e) : ∃ mention ∈ mentions, e = ⟨.undefinedFragment mention.1, mention.2⟩ := by
    obtain ⟨mention, hmem, hmention⟩ := exists_error_of_mapM h
    exact ⟨mention, hmem, hfind mention e hmention⟩
  unfold ofDefinitions at h
  simp only [bind, Except.bind] at h
  split at h
  · next op hop =>
    split at h
    · cases h
      obtain ⟨definition, hdefinition, hoperation⟩ := List.mem_filterMap.1 (Members.mem_of_get? hop)
      cases definition with
      | operation op =>
        cases hoperation
        exact .inl ⟨op, hdefinition, rfl⟩
      | fragment frag => cases hoperation
    · split at h
      · next hmapM =>
        cases h
        refine .inr (hfragments (fun mention e he => ?_) hmapM)
        split at he <;> cases he
        rfl
      · cases h
  · split at h
    · next hmapM =>
      cases h
      refine .inr (hfragments (fun mention e he => ?_) hmapM)
      split at he <;> cases he
      rfl
    · cases h

private theorem Document.ofDefinitions_unstalled {definitions : List Definition} {e : SyntaxError}
    (h : ofDefinitions definitions = .error e) : e.cause ≠ .stalled := by
  rcases ofDefinitions_error h with ⟨op, -, rfl⟩ | ⟨mention, -, rfl⟩
  · exact nofun
  · exact nofun

/-- On every source, whatever its bytes are, both readers end, with a result or with an error other than that of a
repetition that consumed nothing. -/
theorem Schema.reads_end (schema : Schema) (source : List UInt8) :
    ((∃ declarations, schema.read? source = .ok declarations) ∨
        ∃ e, schema.read? source = .error e ∧ e.cause ≠ .stalled) ∧
      ((∃ document, Document.read? schema source = .ok document) ∨
        ∃ e, Document.read? schema source = .error e ∧ e.cause ≠ .stalled) := by
  have hends {α : Type} {p : Parser α} {same : α → α → Prop} {after : α → Ahead}
      (h : ∀ room, Parser.InStep false room Respaced p p same after) :
      (∃ a s, p (.ofBytes source) = .ok a s) ∨ ∃ e s, p (.ofBytes source) = .error e s ∧ e.cause ≠ .stalled := by
    have hagree := Parser.InStep.run h (s := .ofBytes source) (t := .ofBytes source) rfl
    generalize p (.ofBytes source) = result at hagree ⊢
    cases hagree with
    | ok => exact .inl ⟨_, _, rfl⟩
    | error _ hstalled => exact .inr ⟨_, _, rfl, hstalled⟩
  constructor
  · unfold Schema.read?
    rcases hends fun _ => Parser.readDeclarations_inStep schema with ⟨ds, s, h⟩ | ⟨e, s, h, he⟩
    · exact .inl ⟨ds, by rw [h]⟩
    · exact .inr ⟨e, by rw [h], he⟩
  · unfold Document.read?
    rcases hends fun _ => Parser.readDefinitions_inStep schema with ⟨ds, s, h⟩ | ⟨e, s, h, he⟩
    · rw [h]
      cases hdocument : Document.ofDefinitions ds with
      | ok document => exact .inl ⟨document, hdocument⟩
      | error e => exact .inr ⟨e, hdocument, Document.ofDefinitions_unstalled hdocument⟩
    · exact .inr ⟨e, by rw [h], he⟩

/-! ### Layout -/

/-- A byte order mark stands in front of both sources or of neither. -/
private theorem Respaced.ofBytes {left right : List UInt8} (h : Respaced left right) :
    Respaced (Scanner.ofBytes left).rest (Scanner.ofBytes right).rest := by
  have hbare : ∀ b ∈ [(0xef : UInt8), 0xbb, 0xbf], Byte.isBare b = true := List.all_eq_true.1 (by decide)
  have hmark (ahead : List UInt8) : (∃ rest, ahead = [0xef, 0xbb, 0xbf] ++ rest ∧ (Scanner.ofBytes ahead).rest = rest) ∨
      (¬[0xef, 0xbb, 0xbf] <+: ahead ∧ (Scanner.ofBytes ahead).rest = ahead) := by
    unfold Scanner.ofBytes
    split
    · next rest => exact .inl ⟨rest, rfl, rfl⟩
    · next hne => exact .inr ⟨fun ⟨rest, hrest⟩ => hne rest hrest.symm, rfl⟩
  rcases hmark left with ⟨left, rfl, hleft⟩ | ⟨hleft, hleft'⟩
  · obtain ⟨rest, rfl, hrest⟩ := Respaced.append hbare h
    exact hrest
  · rcases hmark right with ⟨right, rfl, hright⟩ | ⟨-, hright⟩
    · obtain ⟨rest, rfl, -⟩ := Respaced.append hbare (Eq.symm h)
      exact absurd (List.prefix_append _ _) hleft
    · rwa [hleft', hright]

/-- Sources that differ in their layout only are read alike: both readers find the same in them, save for positions, or
fail for the same cause. -/
theorem Schema.reads_respaced (schema : Schema) {left right : List UInt8} (h : Respaced left right) :
    unplacedResult (List.map (Declaration.unplaced TypeRef.unplaced)) (schema.read? left) =
        unplacedResult (List.map (Declaration.unplaced TypeRef.unplaced)) (schema.read? right) ∧
      unplacedResult Document.unplaced (Document.read? schema left) =
        unplacedResult Document.unplaced (Document.read? schema right) := by
  constructor
  · have hagree := Parser.InStep.run (fun _ => Parser.readDeclarations_inStep schema) h.ofBytes
    unfold Schema.read?
    generalize Parser.readDeclarations schema (.ofBytes left) = result,
      Parser.readDeclarations schema (.ofBytes right) = result' at hagree ⊢
    cases hagree with
    | ok hsame => exact congrArg Except.ok hsame
    | error hcause => exact congrArg Except.error hcause
  · have hagree := Parser.InStep.run (fun _ => Parser.readDefinitions_inStep schema) h.ofBytes
    unfold Document.read?
    generalize Parser.readDefinitions schema [] (.ofBytes left) = result,
      Parser.readDefinitions schema [] (.ofBytes right) = result' at hagree ⊢
    cases hagree with
    | ok hsame =>
      dsimp only
      rw [Document.ofDefinitions_unplaced, hsame, Document.ofDefinitions_unplaced]
    | error hcause => exact congrArg Except.error hcause

/-- A comment in the place of a space, and other spaces. Inside the string nothing may differ. -/
theorem Schema.reads_respaced_comment :
    Respaced "\"#,\" type A{b:Int}".toUTF8.toList "\"#,\"#x\n,type\tA{b:Int}".toUTF8.toList ∧
      ¬Respaced "\"#,\" type A{b:Int}".toUTF8.toList "\"#\" type A{b:Int}".toUTF8.toList ∧
        unplacedResult (List.map (Declaration.unplaced TypeRef.unplaced))
            (Schema.read? {} "\"#,\" type A{b:Int}".toUTF8.toList) =
          unplacedResult (List.map (Declaration.unplaced TypeRef.unplaced))
            (Schema.read? {} "\"#,\"#x\n,type\tA{b:Int}".toUTF8.toList) ∧
        unplacedResult Document.unplaced (Document.read? {} "\"#,\" type A{b:Int}".toUTF8.toList) =
          unplacedResult Document.unplaced (Document.read? {} "\"#,\"#x\n,type\tA{b:Int}".toUTF8.toList) := by
  have hrespaced : Respaced "\"#,\" type A{b:Int}".toUTF8.toList "\"#,\"#x\n,type\tA{b:Int}".toUTF8.toList := by
    unfold Respaced Stretch.Same
    decide +kernel
  refine ⟨hrespaced, ?_, reads_respaced {} hrespaced⟩
  unfold Respaced Stretch.Same
  decide +kernel

/-! ### Pieces -/

/-- The source, save for what is left of it, is a list of pieces of which each is read as an item, with insignificant
text between them. What an item is may depend on those that were read before. -/
inductive Pieces {α : Type} (item : List α → Parser α) : List α → List UInt8 → List α → List UInt8 → Prop where
  | nil {read : List α} {gap left : List UInt8} :
      significant (gap ++ left) = left → Pieces item read (gap ++ left) [] left
  | cons {read items : List α} {a : α} {gap piece behind left : List UInt8} {s s' : Scanner} :
      significant (gap ++ (piece ++ behind)) = piece ++ behind → piece ≠ [] → s.rest = piece ++ behind →
        item read s = .ok a s' → s'.rest = behind → Pieces item (read ++ [a]) behind items left →
          Pieces item read (gap ++ (piece ++ behind)) (a :: items) left

namespace Pieces

variable {α : Type} {item : List α → Parser α} {read items : List α} {source left : List UInt8}

/-- What is left of a source is its end. -/
theorem suffix (h : Pieces item read source items left) : left <:+ source := by
  induction h with
  | nil => exact List.suffix_append _ _
  | cons _ _ _ _ _ _ ih => exact ih.trans ((List.suffix_append _ _).trans (List.suffix_append _ _))

private theorem of_skip (source : List UInt8) : Pieces item read source [] (significant source) := by
  obtain ⟨gap, hgap⟩ := significant_suffix source
  have hpieces : Pieces item read (gap ++ significant source) [] (significant source) := .nil (by rw [hgap])
  rwa [hgap] at hpieces

private theorem of_step {a : α} {s s' : Scanner} (hs : s.rest = significant source) (hpasses : s.Passes true s')
    (hread : item read s = .ok a s') (h : Pieces item (read ++ [a]) s'.rest items left) :
    Pieces item read source (a :: items) left := by
  obtain ⟨piece, hpiece⟩ := hpasses.suffix
  obtain ⟨gap, hgap⟩ := significant_suffix source
  have hne : piece ≠ [] := by
    rintro rfl
    exact hpasses.ne rfl hpiece
  have hsource : gap ++ (piece ++ s'.rest) = source := by rw [hpiece, hs, hgap]
  have hpieces : Pieces item read (gap ++ (piece ++ s'.rest)) (a :: items) left :=
    .cons (by rw [hsource, hpiece, hs]) hne hpiece.symm hread rfl h
  rwa [hsource] at hpieces

end Pieces

namespace Parser

variable {schema : Schema} {s s' : Scanner}

theorem exists_of_bind {α β : Type} {p : Parser α} {f : α → Parser β} {b : β} (h : (p >>= f) s = .ok b s') :
    ∃ a s₁, p s = .ok a s₁ ∧ f a s₁ = .ok b s' := by
  rw [show (p >>= f) s = EStateM.bind p f s from rfl] at h
  unfold EStateM.bind at h
  cases hp : p s with
  | error e s₁ =>
    rw [hp] at h
    cases h
  | ok a s₁ =>
    rw [hp] at h
    exact ⟨a, s₁, rfl, h⟩

private theorem passes_of_inStep {α : Type} {p : Parser α} {before : Ahead} {same : α → α → Prop} {after : α → Ahead}
    {a : α} (h : ∀ room, InStep true room before p p same after) (hs : before s.rest s.rest) (hread : p s = .ok a s') :
    s.Passes true s' := by
  have hagree := h (s.rest.length + 1, s.rest.length + 1) s s hs (Nat.lt_succ_self _) (Nat.lt_succ_self _)
  rw [hread] at hagree
  cases hagree with
  | ok _ _ hpasses => exact hpasses

/-- A repetition goes on as it began where something was consumed. -/
private theorem guarded_ok {α β : Type} {body : (β → Parser α) → β → Parser α} {b : β} {a : α} {s₁ : Scanner}
    (h : (if s₁.rest.length < s.rest.length then Reader.fixWith stalledAt body b s₁ else .error (stalledAt s₁) s₁) =
      .ok a s') : Parser.fixWith body b s₁ = .ok a s' := by
  split at h
  · exact h
  · cases h

/-- What is read as declarations are pieces of the source, up to its end or a byte zero. -/
private theorem readDeclarations_pieces (schema : Schema) (read : List Declaration) {declarations : List Declaration}
    (h : readDeclarations schema s = .ok declarations s') :
    Pieces (fun _ => readDeclaration schema) read s.rest declarations s'.rest ∧ s'.rest.headD 0 = 0 := by
  induction hn : s.rest.length using Nat.strongRecOn generalizing s declarations read with
  | ind n ih =>
    subst hn
    unfold readDeclarations Parser.fix Reader.fix at h
    rw [Reader.fixWith_eq] at h
    obtain ⟨b, s₁, hskip, h⟩ := exists_of_bind h
    obtain ⟨rfl, rfl⟩ : s.skipSpace.peek = b ∧ s.skipSpace = s₁ := EStateM.Result.ok.inj hskip
    split at h
    · next hzero =>
      cases h
      refine ⟨s.skipSpace_rest ▸ .of_skip s.rest, ?_⟩
      rw [← Scanner.peek_eq]
      exact eq_of_beq hzero
    · obtain ⟨declaration, s₂, hdeclaration, h⟩ := exists_of_bind h
      obtain ⟨declarations', s₃, hmore, h⟩ := exists_of_bind h
      cases h
      have hpasses : s.skipSpace.Passes true s₂ :=
        passes_of_inStep (fun _ => readDeclaration_inStep schema) rfl hdeclaration
      have hshorter : s₂.rest.length < s.rest.length :=
        Nat.lt_of_lt_of_le hpasses.length_lt (s.skipSpace_rest ▸ length_significant_le s.rest)
      obtain ⟨hpieces, hend⟩ := ih _ hshorter (read ++ [declaration]) (guarded_ok hmore) rfl
      exact ⟨.of_step s.skipSpace_rest hpasses hdeclaration hpieces, hend⟩

/-- What is read as definitions are pieces of the source, up to its end or a byte zero. -/
theorem readDefinitions_pieces (schema : Schema) {read definitions : List Definition}
    (h : readDefinitions schema read s = .ok definitions s') :
    ∃ items, definitions = read ++ items ∧ s'.rest.headD 0 = 0 ∧
      Pieces (fun read => do readDefinition schema read (← peek)) read s.rest items s'.rest := by
  induction hn : s.rest.length using Nat.strongRecOn generalizing s read with
  | ind n ih =>
    subst hn
    unfold readDefinitions Parser.fixWith at h
    rw [Reader.fixWith_eq] at h
    obtain ⟨b, s₁, hskip, h⟩ := exists_of_bind h
    obtain ⟨rfl, rfl⟩ : s.skipSpace.peek = b ∧ s.skipSpace = s₁ := EStateM.Result.ok.inj hskip
    split at h
    · next hzero =>
      cases h
      refine ⟨[], (List.append_nil _).symm, ?_, s.skipSpace_rest ▸ .of_skip s.rest⟩
      rw [← Scanner.peek_eq]
      exact eq_of_beq hzero
    · obtain ⟨definition, s₂, hdefinition, h⟩ := exists_of_bind h
      have hfacing : Facing s.skipSpace.peek s.skipSpace.rest s.skipSpace.rest :=
        ⟨rfl, (Scanner.peek_eq _).symm, (Scanner.peek_eq _).symm⟩
      have hpasses : s.skipSpace.Passes true s₂ :=
        passes_of_inStep (fun _ => readDefinition_inStep schema rfl _) hfacing hdefinition
      have hshorter : s₂.rest.length < s.rest.length :=
        Nat.lt_of_lt_of_le hpasses.length_lt (s.skipSpace_rest ▸ length_significant_le s.rest)
      obtain ⟨items, rfl, hend, hpieces⟩ := ih _ hshorter (guarded_ok h) rfl
      exact ⟨definition :: items, by simp, hend, .of_step s.skipSpace_rest hpasses hdefinition hpieces⟩

end Parser

private theorem Scanner.ofBytes_suffix (source : List UInt8) : (Scanner.ofBytes source).rest <:+ source := by
  unfold Scanner.ofBytes
  split
  · next rest => exact List.suffix_append [0xef, 0xbb, 0xbf] rest
  · exact List.suffix_refl _

private theorem Pieces.left_eq_nil {α : Type} {item : List α → Parser α} {read items : List α}
    {source left : List UInt8} (h : Pieces item read (Scanner.ofBytes source).rest items left) (hend : left.headD 0 = 0)
    (hzero : 0 ∉ source) : left = [] := by
  cases left with
  | nil => rfl
  | cons b left =>
    have hmem : b ∈ source := (h.suffix.trans (Scanner.ofBytes_suffix source)).subset List.mem_cons_self
    rw [List.headD_cons] at hend
    exact absurd (hend ▸ hmem) hzero

/-- What was read from a source, as declarations or as the definitions of a request, are pieces of it, one after the
other with nothing but insignificant text between them, and they reach to the end of the source or to a byte zero. A
byte order mark is none of the source. -/
theorem Schema.reads_pieces (schema : Schema) (source : List UInt8) :
    (∀ declarations, schema.read? source = .ok declarations →
        ∃ left, Pieces (fun _ => Parser.readDeclaration schema) [] (Scanner.ofBytes source).rest declarations left ∧
          left.headD 0 = 0 ∧ (0 ∉ source → left = [])) ∧
      ∀ document, Document.read? schema source = .ok document →
        ∃ definitions left, Document.ofDefinitions definitions = .ok document ∧
          Pieces (fun read => do Parser.readDefinition schema read (← Parser.peek)) [] (Scanner.ofBytes source).rest
            definitions left ∧
          left.headD 0 = 0 ∧ (0 ∉ source → left = []) := by
  constructor
  · intro declarations h
    unfold Schema.read? at h
    split at h
    · next ds s hread =>
      cases h
      obtain ⟨hpieces, hend⟩ := Parser.readDeclarations_pieces schema [] hread
      exact ⟨s.rest, hpieces, hend, hpieces.left_eq_nil hend⟩
    · cases h
  · intro document h
    unfold Document.read? at h
    split at h
    · next definitions s hread =>
      obtain ⟨items, hitems, hend, hpieces⟩ := Parser.readDefinitions_pieces schema hread
      rw [List.nil_append] at hitems
      exact ⟨items, s.rest, hitems ▸ h, hpieces, hend, hpieces.left_eq_nil hend⟩
    · cases h

/-- What is read from `scalar A`, whatever comes behind a byte zero. -/
private def scalarA : List Declaration := [.type { name := "A", pos := ⟨1, 1⟩, body := .scalar .any }]

private theorem scalarA_read : Schema.read? {} "scalar A\x00scalar B".toUTF8.toList = .ok scalarA := by
  have hbytes : "scalar A\x00scalar B".toUTF8.toList =
      [115, 99, 97, 108, 97, 114, 32, 65, 0, 115, 99, 97, 108, 97, 114, 32, 66] := by
    decide +kernel
  rw [hbytes]
  cbv

/-- What is read from `{a}`, whatever comes behind a byte zero. -/
private def queryA : Document where
  operations := [
    { kind := .query, name := "", selections := [.field { name := "a", pos := ⟨1, 2⟩ } []], pos := ⟨1, 1⟩ }]
  fragments := []

private theorem queryA_read : Document.read? {} "{a}\x00{b}".toUTF8.toList = .ok queryA := by
  have hbytes : "{a}\x00{b}".toUTF8.toList = [123, 97, 125, 0, 123, 98, 125] := by decide +kernel
  rw [hbytes]
  cbv

theorem Schema.reads_pieces_zero :
    0 ∈ "scalar A\x00scalar B".toUTF8.toList ∧
      (∃ left, Pieces (fun _ => Parser.readDeclaration {}) []
          (Scanner.ofBytes "scalar A\x00scalar B".toUTF8.toList).rest scalarA left ∧
          left.headD 0 = 0 ∧ (0 ∉ "scalar A\x00scalar B".toUTF8.toList → left = [])) ∧
        ∃ definitions left, Document.ofDefinitions definitions = .ok queryA ∧
          Pieces (fun read => do Parser.readDefinition {} read (← Parser.peek)) []
            (Scanner.ofBytes "{a}\x00{b}".toUTF8.toList).rest definitions left ∧
          left.headD 0 = 0 ∧ (0 ∉ "{a}\x00{b}".toUTF8.toList → left = []) :=
  ⟨by decide +kernel, (reads_pieces {} _).1 _ scalarA_read, (reads_pieces {} _).2 _ queryA_read⟩

end GraphQL
