import GraphQL.Proofs.Schema.Repeats
import GraphQL.Proofs.Schema.Unplaced

/-!
# Declarations in pieces

A declaration may be written in pieces: a base, and extensions that hold the rest of its interfaces, members and uses of
directives (`TypeDecl.Splits`). Extensions of different declarations do not touch each other, so those of one
declaration can be taken first (`Schema.steps_partition`), and the pieces make of the base what was split. So a batch is
accepted, and its schema written, as it was before (`Schema.Reachable.add_split`).
-/

namespace GraphQL

/-! ### Joining -/

/-- The root that is given, if it is not given twice. -/
def joinRoot? : Option TypeRef → Option TypeRef → Option (Option TypeRef)
  | none, root => some root
  | root, none => some root
  | some _, some _ => none

/-- The roots of both, if none is in both. -/
def SchemaRoots.join? (roots more : SchemaRoots) : Option SchemaRoots := do
  let query ← joinRoot? roots.query more.query
  let mutation ← joinRoot? roots.mutation more.mutation
  let subscription ← joinRoot? roots.subscription more.subscription
  return { query, mutation, subscription }

/-- The interfaces and fields of one, and then those of the other. -/
def ObjectBody.join (body more : ObjectBody) : ObjectBody where
  interfaces := body.interfaces ++ more.interfaces
  fields := body.fields ++ more.fields

/-- The members of one, and then those of the other, if they are of the same kind. -/
def TypeBody.join? : TypeBody → TypeBody → Option TypeBody
  | .scalar kind, .scalar _ => some (.scalar kind)
  | .object body, .object more => some (.object (body.join more))
  | .interface body, .interface more => some (.interface (body.join more))
  | .union members, .union more => some (.union (members ++ more))
  | .enum values, .enum more => some (.enum (values ++ more))
  | .input fields, .input more => some (.input (fields ++ more))
  | .schema roots, .schema more => (roots.join? more).map .schema
  | _, _ => none

/-- What one declaration and another of the same name say together. Only the first is described. -/
def TypeDecl.join? (type more : TypeDecl) : Option TypeDecl :=
  if more.name = type.name ∧ more.description = none then
    (type.body.join? more.body).map fun body => { type with directives := type.directives ++ more.directives, body }
  else none

/-- The names of the fields or symbols. -/
def TypeBody.memberNames : TypeBody → List String
  | .object body | .interface body => Members.names body.fields
  | .enum values => Members.names values
  | .input fields => Members.names fields
  | _ => []

/-- No member and no interface comes twice. -/
structure TypeBody.Unrepeated (body : TypeBody) : Prop where
  memberNames : body.memberNames.Nodup
  listed : body.listed.Nodup

/-- Save for positions, the declaration says what the base and the pieces say together, and it says nothing twice. -/
structure TypeDecl.Splits (whole base : TypeDecl) (pieces : List TypeDecl) : Prop where
  unrepeated : whole.body.Unrepeated
  joined : (pieces.map (TypeDecl.unplaced TypeRef.unplaced)).foldlM TypeDecl.join? (base.unplaced TypeRef.unplaced) =
    some (whole.unplaced TypeRef.unplaced)

/-! ### Extending is joining -/

theorem addMembers_append {α : Type} [HasName α] {members more : List α} (h : Members.Distinct (members ++ more)) :
    addMembers members more = (members ++ more, none) := by
  induction more generalizing members with
  | nil => rw [List.append_nil, addMembers]
  | cons a rest ih =>
    rw [addMembers, if_neg (Bool.eq_false_iff.1 h.new), ih, List.append_assoc, List.singleton_append]
    rwa [List.append_assoc]

private theorem new_of_nodup {types rest : List TypeRef} {type : TypeRef}
    (h : ((types ++ type :: rest).map TypeRef.baseName).Nodup) :
    ¬ (types.map TypeRef.baseName).contains type.baseName = true := by
  rw [List.map_append, List.nodup_append] at h
  intro hmem
  exact h.2.2 _ (List.contains_iff_mem.1 hmem) _ List.mem_cons_self rfl

theorem addReferences_append {members more : List TypeRef} (h : ((members ++ more).map TypeRef.baseName).Nodup) :
    addReferences members more = (members ++ more, none) := by
  induction more generalizing members with
  | nil => rw [List.append_nil, addReferences]
  | cons type rest ih =>
    rw [addReferences, if_neg (new_of_nodup h), ih, List.append_assoc, List.singleton_append]
    rwa [List.append_assoc]

theorem addInterfaces_append {interfaces more : List TypeRef}
    (h : ((interfaces ++ more).map TypeRef.baseName).Nodup) :
    addInterfaces interfaces more = interfaces ++ more := by
  induction more generalizing interfaces with
  | nil => rw [List.append_nil, addInterfaces]
  | cons type rest ih =>
    rw [addInterfaces, if_neg (new_of_nodup h), ih, List.append_assoc, List.singleton_append]
    rwa [List.append_assoc]

private theorem joinRoot?_eq_some {root more joined : Option TypeRef} (h : joinRoot? root more = some joined) :
    (root.isSome && more.isSome) = false ∧ joined = (root <|> more) := by
  cases root <;> cases more <;> cases h <;> exact ⟨rfl, rfl⟩

private theorem addRoots_of_join? {roots more joined : SchemaRoots} (h : roots.join? more = some joined) :
    addRoots roots more = (joined, none) := by
  simp only [SchemaRoots.join?, Option.bind_eq_bind, Option.bind_eq_some_iff, Option.pure_def, Option.some.injEq] at h
  obtain ⟨query, hquery, mutation, hmutation, subscription, hsubscription, rfl⟩ := h
  obtain ⟨hnoQuery, rfl⟩ := joinRoot?_eq_some hquery
  obtain ⟨hnoMutation, rfl⟩ := joinRoot?_eq_some hmutation
  obtain ⟨hnoSubscription, rfl⟩ := joinRoot?_eq_some hsubscription
  simp only [addRoots, hnoQuery, hnoMutation, hnoSubscription, Bool.false_eq_true, if_false]

namespace TypeBody

variable {body more joined : TypeBody}

theorem join?_keyword (h : body.join? more = some joined) :
    more.keyword = body.keyword ∧ joined.keyword = body.keyword := by
  cases body <;> cases more <;> simp [join?] at h
  case schema.schema =>
    obtain ⟨roots, -, rfl⟩ := h
    exact ⟨rfl, rfl⟩
  all_goals subst h; exact ⟨rfl, rfl⟩

theorem join?_names (h : body.join? more = some joined) :
    joined.memberNames = body.memberNames ++ more.memberNames ∧ joined.listed = body.listed ++ more.listed := by
  cases body <;> cases more <;> simp only [join?, reduceCtorEq, Option.some.injEq, Option.map_eq_some_iff] at h
  case schema.schema =>
    obtain ⟨roots, -, rfl⟩ := h
    exact ⟨rfl, rfl⟩
  case scalar.scalar => exact h ▸ ⟨rfl, rfl⟩
  all_goals
    subst h
    first
      | exact ⟨List.map_append, List.map_append⟩
      | exact ⟨List.map_append, rfl⟩
      | exact ⟨rfl, List.map_append⟩

/-- The members of a part come once if those of the whole do. -/
theorem Unrepeated.of_join? (hjoined : joined.Unrepeated) (h : body.join? more = some joined) : body.Unrepeated := by
  obtain ⟨hnames, hlisted⟩ := join?_names h
  exact ⟨(hnames ▸ hjoined.memberNames).of_append_left, (hlisted ▸ hjoined.listed).of_append_left⟩

/-- A body is extended by putting the members of both one after the other. -/
theorem extend_of_join? (h : body.join? more = some joined) (hjoined : joined.Unrepeated) :
    body.extend more = (joined, none) := by
  obtain ⟨hnames, hlisted⟩ := hjoined
  cases body <;> cases more <;> simp only [join?, reduceCtorEq, Option.some.injEq, Option.map_eq_some_iff] at h
  case scalar.scalar => rw [← h]; rfl
  case object.object body more | interface.interface body more =>
    subst h
    have hfields : addMembers body.fields more.fields = (body.fields ++ more.fields, none) := addMembers_append hnames
    have hinterfaces : addInterfaces body.interfaces more.interfaces = body.interfaces ++ more.interfaces :=
      addInterfaces_append hlisted
    simp only [TypeBody.extend, ObjectBody.extend, hfields, hinterfaces, ObjectBody.join, Option.map_none]
  case union.union members more =>
    subst h
    simp only [TypeBody.extend, addReferences_append hlisted, Option.map_none]
  case enum.enum values more =>
    subst h
    simp only [TypeBody.extend, addMembers_append hnames, Option.map_none]
  case input.input fields more =>
    subst h
    simp only [TypeBody.extend, addMembers_append hnames, Option.map_none]
  case schema.schema roots more =>
    obtain ⟨both, hboth, rfl⟩ := h
    simp only [TypeBody.extend, addRoots_of_join? hboth, Option.map_none]

end TypeBody

namespace TypeDecl

variable {type more joined base whole : TypeDecl} {pieces : List TypeDecl}

/-- What is declared or extended: the type of the given name, or else the schema. -/
def target (type : TypeDecl) : Option String :=
  match type.body with
  | .schema _ => none
  | _ => some type.name

theorem join?_eq_some_iff :
    type.join? more = some joined ↔ (more.name = type.name ∧ more.description = none) ∧
      ∃ body, type.body.join? more.body = some body ∧
        joined = { type with directives := type.directives ++ more.directives, body } := by
  unfold join?
  split
  · next h => simp [h, eq_comm]
  · next h => simp [h]

private theorem target_congr (hname : more.name = type.name) (hkeyword : more.body.keyword = type.body.keyword) :
    more.target = type.target := by
  unfold target
  rw [hname]
  cases hmore : more.body <;> cases htype : type.body <;> simp_all [TypeBody.keyword]

theorem target_of_join? (h : type.join? more = some joined) :
    more.target = type.target ∧ joined.target = type.target := by
  obtain ⟨⟨hname, -⟩, body, hbody, rfl⟩ := join?_eq_some_iff.1 h
  obtain ⟨hmore, hjoined⟩ := TypeBody.join?_keyword hbody
  exact ⟨target_congr hname hmore, target_congr rfl hjoined⟩

/-- An extension whose members are all new does what joining does. -/
theorem extend_of_join? (h : type.join? more = some joined) (hjoined : joined.body.Unrepeated) :
    type.extend more = (joined, []) := by
  obtain ⟨⟨-, hdescription⟩, body, hbody, rfl⟩ := join?_eq_some_iff.1 h
  unfold extend
  rw [if_pos (TypeBody.join?_keyword hbody).1.symm, TypeBody.extend_of_join? hbody hjoined, hdescription]
  simp

end TypeDecl

/-! ### Extensions of different declarations -/

namespace Declaration

/-- The declaration extends what is declared under the given name, or the schema. -/
def extends? (target : Option String) : Declaration → Bool
  | .extension more => more.target == target
  | _ => false

/-- The declaration extends something else. -/
def extendsOther (target : Option String) (d : Declaration) : Bool := d.isExtension && !d.extends? target

end Declaration

/-- The base and the pieces are put among the rest of a batch: the pieces in order and before all other extensions of
the same declaration, and the others as they were. -/
structure Declaration.Placed (base : TypeDecl) (pieces : List TypeDecl) (rest others : List Declaration) : Prop where
  perm : others.Perm (.type base :: pieces.map .extension ++ rest)
  first : others.filter (·.extends? base.target) =
    pieces.map .extension ++ rest.filter (·.extends? base.target)
  later : others.filter (·.extendsOther base.target) = rest.filter (·.extendsOther base.target)

namespace Schema

variable {schema next : Schema} {more other type type' base whole : TypeDecl} {pieces : List TypeDecl}
  {d e : Declaration} {declarations front rest : List Declaration} {target : Option String}

/-- The type of the given name, or else the declaration of the schema. -/
def declared? (schema : Schema) : Option String → Option TypeDecl
  | some name => schema.type? name
  | none => schema.declaration

/-- The schema with another declaration in the place of one that it has. -/
def redeclared (schema : Schema) (type : TypeDecl) : Option String → Schema
  | some _ => { schema with types := Members.put type schema.types }
  | none => { schema with declaration := some type }

theorem extended?_eq (more : TypeDecl) : schema.extended? more = schema.declared? more.target := by
  unfold extended? TypeDecl.target
  cases more.body <;> rfl

theorem replace_eq (more type : TypeDecl) : schema.replace more type = schema.redeclared type more.target := by
  unfold replace TypeDecl.target
  cases more.body <;> rfl

theorem extend_of_declared? (h : schema.declared? more.target = some type) :
    schema.extend (.extension more) = (schema.redeclared (type.extend more).1 more.target, (type.extend more).2) := by
  unfold extend
  dsimp only
  rw [extended?_eq, h]
  dsimp only
  rw [replace_eq]

theorem extend_of_not_declared (h : schema.declared? more.target = none) :
    schema.extend (.extension more) = (schema, [⟨.extendsUndefined more.body.keyword more.name, more.pos⟩]) := by
  unfold extend
  dsimp only
  rw [extended?_eq, h]

/-- A declaration in the place of one of the same name is the one that is there then. -/
private theorem declared?_redeclared (target' : Option String) (h : schema.declared? target = some type)
    (hname : type'.name = type.name) :
    (schema.redeclared type' target).declared? target' =
      if target' = target then some type' else schema.declared? target' := by
  cases target with
  | none => cases target' <;> rfl
  | some name =>
    have hhere : type'.name = name := hname.trans (Members.name_of_get? h)
    cases target' with
    | none => simp [redeclared, declared?]
    | some name' =>
      show Members.get? name' (Members.put type' schema.types) = _
      rw [Members.get?_put, show HasName.name type' = name from hhere]
      simp [declared?, type?, eq_comm]

private theorem redeclared_redeclared (hname : type'.name = type.name) :
    (schema.redeclared type target).redeclared type' target = schema.redeclared type' target := by
  cases target with
  | none => rfl
  | some name =>
    show Schema.mk (Members.put type' (Members.put type schema.types)) _ _ = _
    rw [Members.put_put hname]
    rfl

private theorem redeclared_comm {other other' : TypeDecl} {target' : Option String}
    (h : schema.declared? target = some type) (hname : type'.name = type.name)
    (hother : schema.declared? target' = some other) (hname' : other'.name = other.name) (hne : target ≠ target') :
    (schema.redeclared type' target).redeclared other' target' =
      (schema.redeclared other' target').redeclared type' target := by
  cases target with
  | none =>
    cases target' with
    | none => exact absurd rfl hne
    | some name' => rfl
  | some name =>
    cases target' with
    | none => rfl
    | some name' =>
      have hhere : other'.name ∈ Members.names schema.types :=
        hname' ▸ List.mem_map_of_mem (Members.mem_of_get? hother)
      have hnames : HasName.name other' ≠ HasName.name type' := by
        rw [show HasName.name other' = name' from hname'.trans (Members.name_of_get? hother),
          show HasName.name type' = name from hname.trans (Members.name_of_get? h)]
        exact fun heq => hne (congrArg some heq.symm)
      show Schema.mk (Members.put other' (Members.put type' schema.types)) _ _ =
        Schema.mk (Members.put type' (Members.put other' schema.types)) _ _
      rw [Members.put_comm hhere hnames]
      rfl

/-- An extension does not see extensions of other declarations. -/
theorem extend_comm (hne : more.target ≠ other.target) :
    ((schema.extend (.extension more)).1.extend (.extension other)).1 =
        ((schema.extend (.extension other)).1.extend (.extension more)).1 ∧
      ((schema.extend (.extension more)).1.extend (.extension other)).2 = (schema.extend (.extension other)).2 := by
  cases hmore : schema.declared? more.target with
  | none =>
    rw [extend_of_not_declared hmore]
    refine ⟨?_, rfl⟩
    cases hother : schema.declared? other.target with
    | none => rw [extend_of_not_declared hother, extend_of_not_declared hmore]
    | some type' =>
      rw [extend_of_declared? hother]
      have hstill := declared?_redeclared more.target hother (type'.name_extend other)
      rw [if_neg hne, hmore] at hstill
      rw [extend_of_not_declared hstill]
  | some type =>
    have hafter := declared?_redeclared other.target hmore (type.name_extend more)
    rw [if_neg hne.symm] at hafter
    rw [extend_of_declared? hmore]
    cases hother : schema.declared? other.target with
    | none =>
      rw [hother] at hafter
      rw [extend_of_not_declared hafter, extend_of_not_declared hother, extend_of_declared? hmore]
      exact ⟨rfl, rfl⟩
    | some type' =>
      rw [hother] at hafter
      have hback := declared?_redeclared more.target hother (type'.name_extend other)
      rw [if_neg hne, hmore] at hback
      rw [extend_of_declared? hafter, extend_of_declared? hother]
      dsimp only
      rw [extend_of_declared? hback]
      exact ⟨redeclared_comm hmore (type.name_extend more) hother (type'.name_extend other) hne, rfl⟩

/-! ### One declaration first -/

theorem steps_append_eq {step : Schema → Declaration → Schema × List SchemaError} {more : List Declaration} :
    steps step schema (declarations ++ more) =
      ((steps step (steps step schema declarations).1 more).1,
        (steps step schema declarations).2 ++ (steps step (steps step schema declarations).1 more).2) := by
  induction declarations generalizing schema with
  | nil => rfl
  | cons d rest ih =>
    rw [List.cons_append, steps, steps]
    dsimp only
    rw [ih, List.append_assoc]

private theorem extend_past (hd : d.extendsOther target = true) (he : e.extends? target = true) :
    ((schema.extend d).1.extend e).1 = ((schema.extend e).1.extend d).1 ∧
      ((schema.extend d).1.extend e).2 = (schema.extend e).2 ∧
        ((schema.extend e).1.extend d).2 = (schema.extend d).2 := by
  cases d with
  | type _ | directive _ => cases hd
  | extension more =>
    cases e with
    | type _ | directive _ => cases he
    | extension other =>
      have hother : other.target = target := eq_of_beq he
      have hmore : more.target ≠ target := by
        simpa [Declaration.extendsOther, Declaration.isExtension, Declaration.extends?] using hd
      have hne : more.target ≠ other.target := hother ▸ hmore
      obtain ⟨hsame, herrors⟩ := schema.extend_comm hne
      exact ⟨hsame, herrors, (schema.extend_comm hne.symm).2⟩

/-- An extension of something else can wait until after the extensions of one declaration. -/
private theorem steps_extend_past (hd : d.extendsOther target = true) (hfront : ∀ e ∈ front, e.extends? target = true) :
    steps extend (schema.extend d).1 front =
        (((steps extend schema front).1.extend d).1, (steps extend schema front).2) ∧
      ((steps extend schema front).1.extend d).2 = (schema.extend d).2 := by
  induction front generalizing schema with
  | nil => exact ⟨rfl, rfl⟩
  | cons e rest ih =>
    obtain ⟨he, hrest⟩ := List.forall_mem_cons.1 hfront
    obtain ⟨hswap, herrors, herrors'⟩ := schema.extend_past hd he
    obtain ⟨hlast, hsame⟩ := @ih (schema.extend e).1 hrest
    rw [steps, steps]
    dsimp only
    rw [hswap, hlast, herrors, hsame, herrors']
    exact ⟨rfl, rfl⟩

/-- The extensions of one declaration can be taken first, and then all others. -/
theorem steps_partition (target : Option String) (declarations : List Declaration) :
    (steps extend schema declarations).1 =
        (steps extend schema (declarations.filter (·.extends? target) ++
          declarations.filter (·.extendsOther target))).1 ∧
      (steps extend schema declarations).2.Perm
        (steps extend schema (declarations.filter (·.extends? target) ++
          declarations.filter (·.extendsOther target))).2 := by
  induction declarations generalizing schema with
  | nil => exact ⟨rfl, .refl _⟩
  | cons d rest ih =>
    obtain ⟨hlast, herrors⟩ := @ih (schema.extend d).1
    by_cases hd : d.extends? target = true
    · have hother : ¬ d.extendsOther target = true := by simp [Declaration.extendsOther, hd]
      rw [List.filter_cons_of_pos hd, List.filter_cons_of_neg hother, List.cons_append, steps, steps]
      exact ⟨hlast, herrors.append_left _⟩
    · by_cases hother : d.extendsOther target = true
      · -- the extension passes those that are taken first
        have hfront : ∀ e ∈ rest.filter (·.extends? target), e.extends? target = true :=
          fun e he => (List.mem_filter.1 he).2
        obtain ⟨hpast, hsame⟩ := schema.steps_extend_past hother hfront
        rw [steps_append_eq, hpast] at hlast herrors
        rw [List.filter_cons_of_neg hd, List.filter_cons_of_pos hother, steps, steps_append_eq, steps]
        dsimp only at hlast herrors ⊢
        rw [hsame]
        refine ⟨hlast, (herrors.append_left _).trans ?_⟩
        rw [← List.append_assoc, ← List.append_assoc]
        exact List.perm_append_comm.append_right _
      · have hneither : schema.extend d = (schema, []) := by
          cases d with
          | type _ | directive _ => rfl
          | extension more => simp_all [Declaration.extendsOther, Declaration.isExtension]
        rw [List.filter_cons_of_neg hd, List.filter_cons_of_neg hother, steps, hneither]
        rw [hneither] at hlast herrors
        exact ⟨hlast, herrors⟩

/-! ### The pieces of a declaration -/

private theorem redeclared_self (h : schema.declared? target = some type) : schema.redeclared type target = schema := by
  cases target with
  | none =>
    show Schema.mk _ _ (some type) = schema
    rw [← (show schema.declaration = some type from h)]
  | some name =>
    show Schema.mk (Members.put type schema.types) _ _ = schema
    rw [Members.put_self (Members.name_of_get? h ▸ h)]

private theorem unrepeated_of_joined (hjoined : pieces.foldlM TypeDecl.join? base = some whole)
    (hwhole : whole.body.Unrepeated) : base.body.Unrepeated := by
  induction pieces generalizing base with
  | nil =>
    cases hjoined
    exact hwhole
  | cons piece rest ih =>
    rw [List.foldlM_cons, Option.bind_eq_bind, Option.bind_eq_some_iff] at hjoined
    obtain ⟨joined, hfirst, hrest⟩ := hjoined
    obtain ⟨-, body, hbody, rfl⟩ := TypeDecl.join?_eq_some_iff.1 hfirst
    exact (ih hrest).of_join? hbody

private theorem target_of_joined (hjoined : pieces.foldlM TypeDecl.join? base = some whole) :
    whole.name = base.name ∧ whole.target = base.target := by
  induction pieces generalizing base with
  | nil =>
    cases hjoined
    exact ⟨rfl, rfl⟩
  | cons piece rest ih =>
    rw [List.foldlM_cons, Option.bind_eq_bind, Option.bind_eq_some_iff] at hjoined
    obtain ⟨joined, hfirst, hrest⟩ := hjoined
    obtain ⟨hname, htarget⟩ := ih hrest
    rw [hname, htarget, (TypeDecl.target_of_join? hfirst).2]
    obtain ⟨-, body, -, rfl⟩ := TypeDecl.join?_eq_some_iff.1 hfirst
    exact ⟨rfl, rfl⟩

/-- Its pieces make of a base what they say together. -/
theorem steps_extend_pieces (hbase : schema.declared? base.target = some base)
    (hjoined : pieces.foldlM TypeDecl.join? base = some whole) (hwhole : whole.body.Unrepeated) :
    steps extend schema (pieces.map .extension) = (schema.redeclared whole base.target, []) := by
  induction pieces generalizing schema base with
  | nil =>
    cases hjoined
    rw [redeclared_self hbase]
    rfl
  | cons piece rest ih =>
    rw [List.foldlM_cons, Option.bind_eq_bind, Option.bind_eq_some_iff] at hjoined
    obtain ⟨joined, hfirst, hrest⟩ := hjoined
    obtain ⟨htarget, htarget'⟩ := TypeDecl.target_of_join? hfirst
    have hextend := TypeDecl.extend_of_join? hfirst (unrepeated_of_joined hrest hwhole)
    have hname : joined.name = base.name := by
      have hname := base.name_extend piece
      rwa [hextend] at hname
    have hstep : schema.extend (.extension piece) = (schema.redeclared joined base.target, []) := by
      rw [extend_of_declared? (htarget.symm ▸ hbase), hextend, htarget]
    have hnow : (schema.redeclared joined base.target).declared? joined.target = some joined := by
      rw [declared?_redeclared _ hbase hname, if_pos htarget']
    rw [List.map_cons, steps, hstep]
    dsimp only
    rw [ih hnow hrest, htarget', redeclared_redeclared (target_of_joined hrest).1]
    rfl

/-! ### Inserting a base -/

private theorem inserted_schema (h : type.target = none) :
    Declaration.type? (.type type) = none ∧ Declaration.schema? (.type type) = some type := by
  unfold TypeDecl.target at h
  cases hbody : type.body <;> simp_all [Declaration.type?, Declaration.schema?]

private theorem inserted_type {name : String} (h : type.target = some name) :
    type.name = name ∧ Declaration.type? (.type type) = some type ∧ Declaration.schema? (.type type) = none := by
  unfold TypeDecl.target at h
  cases hbody : type.body <;> simp_all [Declaration.type?, Declaration.schema?]

section Gains

variable {types restTypes : List TypeDecl} {directives : List DirectiveDecl} {declaration restDeclaration : List TypeDecl}

/-- Where the schema is declared, it can be declared in another way. -/
private theorem Gains.redeclared_roots (h : schema.Gains types directives (whole :: restDeclaration) next)
    (base : TypeDecl) :
    next.declaration = some whole ∧
      schema.Gains types directives (base :: restDeclaration) { next with declaration := some base } := by
  -- the schema is declared once at most
  have hlength : next.declaration.toList.length ≤ 1 := by cases next.declaration <;> simp
  rw [h.declaration, List.length_append, List.length_cons] at hlength
  have hbefore : schema.declaration.toList = [] := List.length_eq_zero_iff.1 (by omega)
  have hafter : restDeclaration = [] := List.length_eq_zero_iff.1 (by omega)
  have hdeclaration : next.declaration = some whole := by
    rw [← Option.head?_toList (o := next.declaration), h.declaration, hbefore]
    rfl
  refine ⟨hdeclaration, h.types, h.directives, ?_, h.distinctTypes, h.distinctDirectives⟩
  rw [hbefore, hafter]
  rfl

/-- Where a type is inserted, another of the same name can be inserted in its place. -/
private theorem Gains.redeclared_type (h : schema.Gains (whole :: restTypes) directives declaration next)
    (hname : base.name = whole.name) :
    Members.get? whole.name next.types = some whole ∧
      schema.Gains (base :: restTypes) directives declaration { next with types := Members.put base next.types } := by
  have hname : HasName.name base = HasName.name whole := hname
  have hmem : whole ∈ next.types := by
    rw [h.types]
    exact List.mem_append_right _ List.mem_cons_self
  have hlisted : HasName.name base ∈ Members.names next.types := hname ▸ List.mem_map_of_mem hmem
  have hnew := h.distinctTypes
  rw [h.types] at hnew
  have hfree : HasName.name base ∉ Members.names schema.types := fun hold => by
    rw [← Members.contains_iff, hname, hnew.new] at hold
    cases hold
  have htypes : Members.put base next.types = schema.types ++ base :: restTypes := by
    rw [h.types]
    exact Members.put_append_cons hname.symm hfree
  refine ⟨h.distinctTypes.get?_of_mem hmem, htypes, h.directives, h.declaration, ?_, h.distinctDirectives⟩
  show Members.Distinct (Members.put base next.types)
  unfold Members.Distinct
  rw [Members.names_put hlisted]
  exact h.distinctTypes

end Gains

/-- Where a declaration is inserted, another of the same name can be inserted in its place. -/
private theorem steps_insert_redeclared (h : schema.Orderly) (hname : base.name = whole.name)
    (htarget : base.target = whole.target)
    (hnext : steps insert schema (.type whole :: rest) = (next, [])) :
    next.declared? base.target = some whole ∧
      steps insert schema (.type base :: rest) = (next.redeclared base base.target, []) := by
  have hgains := (steps_insert_iff h).1 hnext
  have hdirective (type : TypeDecl) : Declaration.directive? (.type type) = none := rfl
  rw [steps_insert_iff h]
  cases hwhole : whole.target with
  | none =>
    rw [hwhole] at htarget
    obtain ⟨hnone, hschema⟩ := inserted_schema hwhole
    obtain ⟨hnone', hschema'⟩ := inserted_schema htarget
    simp only [List.filterMap_cons, hnone, hnone', hschema, hschema', hdirective] at hgains ⊢
    rw [htarget]
    exact hgains.redeclared_roots base
  | some name =>
    rw [hwhole] at htarget
    obtain ⟨hnameWhole, htype, hnone⟩ := inserted_type hwhole
    obtain ⟨-, htype', hnone'⟩ := inserted_type htarget
    simp only [List.filterMap_cons, htype, htype', hnone, hnone', hdirective] at hgains ⊢
    rw [htarget, ← hnameWhole]
    exact hgains.redeclared_type hname

/-! ### Putting in what is split -/

private theorem steps_insert_filter (schema : Schema) (declarations : List Declaration) :
    steps insert schema declarations = steps insert schema (declarations.filter (!·.isExtension)) := by
  induction declarations generalizing schema with
  | nil => rfl
  | cons d rest ih =>
    cases d with
    | extension more =>
      rw [List.filter_cons_of_neg Bool.false_ne_true, steps, ← ih]
      rfl
    | type _ | directive _ =>
      rw [List.filter_cons_of_pos rfl, steps, steps]
      dsimp only
      rw [ih]

private theorem steps_extend_eq_ok_iff {last : Schema} (target : Option String) :
    steps extend schema declarations = (last, []) ↔
      steps extend schema
        (declarations.filter (·.extends? target) ++ declarations.filter (·.extendsOther target)) = (last, []) := by
  obtain ⟨hlast, herrors⟩ := schema.steps_partition target declarations
  rw [Prod.ext_iff, Prod.ext_iff]
  dsimp only
  rw [hlast]
  refine and_congr_right fun _ => ⟨fun hnil => ?_, fun hnil => ?_⟩
  · exact List.nil_perm.1 (hnil ▸ herrors)
  · exact List.perm_nil.1 (hnil ▸ herrors)

/-- The base with its pieces behind it is put in as the declaration is. -/
private theorem assemble_pieces {last : Schema} {others : List Declaration} (h : schema.Orderly)
    (hwhole : whole.body.Unrepeated) (hjoined : pieces.foldlM TypeDecl.join? base = some whole)
    (hinserted : others.filter (!·.isExtension) = .type base :: rest.filter (!·.isExtension))
    (hfirst : others.filter (·.extends? base.target) =
      pieces.map .extension ++ rest.filter (·.extends? base.target))
    (hlater : others.filter (·.extendsOther base.target) = rest.filter (·.extendsOther base.target)) :
    schema.assemble (.type whole :: rest) = (last, []) ↔ schema.assemble others = (last, []) := by
  obtain ⟨hname, htarget⟩ := target_of_joined hjoined
  have hkept : (Declaration.type whole :: rest).filter (!·.isExtension) =
      .type whole :: rest.filter (!·.isExtension) := rfl
  have hextensions : (Declaration.type whole :: rest).filter (·.extends? base.target) =
      rest.filter (·.extends? base.target) := rfl
  have hothers : (Declaration.type whole :: rest).filter (·.extendsOther base.target) =
      rest.filter (·.extendsOther base.target) := rfl
  have hpieces {middle : Schema} (hbase : middle.declared? base.target = some base) (rest : List Declaration) :
      steps extend middle (pieces.map .extension ++ rest) = steps extend (middle.redeclared whole base.target) rest := by
    rw [steps_append_eq, steps_extend_pieces hbase hjoined hwhole]
    rfl
  rw [assemble_eq_ok_iff, assemble_eq_ok_iff]
  constructor
  · rintro ⟨middle, hinsert, hextend⟩
    rw [steps_insert_filter, hkept] at hinsert
    rw [steps_extend_eq_ok_iff base.target, hextensions, hothers] at hextend
    obtain ⟨hwas, hbase⟩ := steps_insert_redeclared h hname.symm htarget.symm hinsert
    refine ⟨_, by rw [steps_insert_filter, hinserted]; exact hbase, ?_⟩
    rw [steps_extend_eq_ok_iff base.target, hfirst, hlater, List.append_assoc, hpieces, redeclared_redeclared hname,
      redeclared_self hwas]
    · exact hextend
    · rw [declared?_redeclared _ hwas hname.symm, if_pos rfl]
  · rintro ⟨middle, hinsert, hextend⟩
    rw [steps_insert_filter, hinserted] at hinsert
    obtain ⟨hwas, hback⟩ := steps_insert_redeclared h hname htarget hinsert
    rw [htarget] at hwas hback
    rw [steps_extend_eq_ok_iff base.target, hfirst, hlater, List.append_assoc, hpieces hwas] at hextend
    refine ⟨_, by rw [steps_insert_filter, hkept]; exact hback, ?_⟩
    rw [steps_extend_eq_ok_iff base.target, hextensions, hothers]
    exact hextend

/-- What is placed can be sorted: the declarations to insert as they come with what is split, and then the extensions. -/
private theorem placed_sorted {others : List Declaration} (h : Declaration.Placed base pieces rest others) :
    ∃ sorted : List Declaration, others.Perm sorted ∧
      sorted.filter Declaration.isExtension = others.filter Declaration.isExtension ∧
        sorted.filter (!·.isExtension) = .type base :: rest.filter (!·.isExtension) := by
  have hpieces : (pieces.map Declaration.extension).filter (!·.isExtension) = [] := by
    rw [List.filter_map]
    simp [Function.comp_def, Declaration.isExtension]
  have hbase := h.perm.filter (!·.isExtension)
  rw [List.cons_append, List.filter_cons_of_pos rfl, List.filter_append, hpieces, List.nil_append] at hbase
  have hparts := List.filter_append_perm (!·.isExtension) others
  simp only [Bool.not_not] at hparts
  refine ⟨(.type base :: rest.filter (!·.isExtension)) ++ others.filter Declaration.isExtension,
    hparts.symm.trans (hbase.append_right _), ?_, ?_⟩
  · rw [List.cons_append, List.filter_cons_of_neg Bool.false_ne_true]
    simp [List.filter_filter]
  · rw [List.cons_append, List.filter_cons_of_pos rfl]
    simp [List.filter_filter]

/-- Declarations with the same extensions have the same extensions of a kind. -/
private theorem filter_extensions {sorted others : List Declaration} {p : Declaration → Bool}
    (h : sorted.filter Declaration.isExtension = others.filter Declaration.isExtension)
    (hp : ∀ d, (d.isExtension && p d) = p d) : sorted.filter p = others.filter p := by
  have hboth (l : List Declaration) : l.filter p = (l.filter Declaration.isExtension).filter p := by
    rw [List.filter_filter]
    exact List.filter_congr fun d _ => by rw [Bool.and_comm, hp]
  rw [hboth, h, ← hboth]

/-- What is split is put in as it was, up to the order of types and directives. -/
theorem assemble_split {others : List Declaration} (h : schema.Orderly) (hwhole : whole.body.Unrepeated)
    (hjoined : pieces.foldlM TypeDecl.join? base = some whole)
    (hplaced : Declaration.Placed base pieces rest others) :
    ((schema.assemble (.type whole :: rest)).2 = [] → (schema.assemble others).2 = [] ∧
        (schema.assemble (.type whole :: rest)).1.Shuffled (schema.assemble others).1) ∧
      ((schema.assemble others).2 = [] → (schema.assemble (.type whole :: rest)).2 = []) := by
  obtain ⟨sorted, hperm, hextensions, hinserted⟩ := placed_sorted hplaced
  have hfirst : sorted.filter (·.extends? base.target) = others.filter (·.extends? base.target) :=
    filter_extensions hextensions fun d => by cases d <;> rfl
  have hlater : sorted.filter (·.extendsOther base.target) = others.filter (·.extendsOther base.target) :=
    filter_extensions hextensions fun d => by cases d <;> rfl
  have hassemble {last : Schema} : schema.assemble (.type whole :: rest) = (last, []) ↔
      schema.assemble sorted = (last, []) :=
    assemble_pieces h hwhole hjoined hinserted (hfirst.trans hplaced.first) (hlater.trans hplaced.later)
  constructor
  · intro herrors
    have hlast := hassemble.1 (Prod.ext rfl herrors)
    have hshuffled := assemble_shuffled h hperm.symm hextensions (Prod.ext_iff.1 hlast).2
    rwa [(Prod.ext_iff.1 hlast).1] at hshuffled
  · intro herrors
    obtain ⟨hnone, -⟩ := assemble_shuffled h hperm hextensions.symm herrors
    exact (Prod.ext_iff.1 (hassemble.2 (Prod.ext rfl hnone))).2

/-! ### Adding what is split -/

private theorem target_unplaced (type : TypeDecl) : (type.unplaced TypeRef.unplaced).target = type.target := by
  unfold TypeDecl.target TypeDecl.unplaced
  cases type.body <;> rfl

private theorem placed_unplaced {others : List Declaration} (h : Declaration.Placed base pieces rest others) :
    Declaration.Placed (base.unplaced TypeRef.unplaced) (pieces.map (TypeDecl.unplaced TypeRef.unplaced))
      (rest.map Declaration.plain) (others.map Declaration.plain) := by
  have hextensions : (pieces.map (TypeDecl.unplaced TypeRef.unplaced)).map Declaration.extension =
      (pieces.map Declaration.extension).map Declaration.plain := by
    rw [List.map_map, List.map_map]
    rfl
  have hextends (target : Option String) : Declaration.extends? target ∘ Declaration.plain = Declaration.extends? target := by
    funext d
    cases d with
    | type _ | directive _ => rfl
    | extension more => exact congrArg (· == target) (target_unplaced more)
  have hother (target : Option String) :
      Declaration.extendsOther target ∘ Declaration.plain = Declaration.extendsOther target := by
    funext d
    have hextends := congrFun (hextends target) d
    cases d with
    | type _ | directive _ => rfl
    | extension more => exact congrArg (fun b => true && !b) hextends
  have hfilter {p : Declaration → Bool} (hp : p ∘ Declaration.plain = p) (l : List Declaration) :
      (l.map Declaration.plain).filter p = (l.filter p).map Declaration.plain := by
    rw [List.filter_map, hp]
  refine ⟨?_, ?_, ?_⟩
  · have hperm := h.perm.map Declaration.plain
    rwa [List.map_append, List.map_cons, ← hextensions] at hperm
  · rw [target_unplaced, hextensions, hfilter (hextends _), hfilter (hextends _), h.first, List.map_append]
  · rw [target_unplaced, hfilter (hother _), hfilter (hother _), h.later]

private theorem memberNames_unplaced (body : TypeBody) :
    (body.unplaced TypeRef.unplaced).memberNames = body.memberNames := by
  cases body with
  | scalar _ | union _ | schema _ => rfl
  | object body | interface body => exact Members.names_map (f := FieldDef.unplaced TypeRef.unplaced) fun _ => rfl
  | enum values => exact Members.names_map (f := EnumValue.unplaced) fun _ => rfl
  | input fields => exact Members.names_map (f := InputValue.unplaced TypeRef.unplaced) fun _ => rfl

private theorem listed_unplaced (body : TypeBody) : (body.unplaced TypeRef.unplaced).listed = body.listed := by
  have htypes (types : List TypeRef) :
      (types.map TypeRef.unplaced).map TypeRef.baseName = types.map TypeRef.baseName :=
    map_map_congr TypeRef.baseName_unplaced types
  cases body with
  | scalar _ | enum _ | input _ | schema _ => rfl
  | object body | interface body => exact htypes body.interfaces
  | union members => exact htypes members

private theorem unrepeated_unplaced {body : TypeBody} (h : body.Unrepeated) :
    (body.unplaced TypeRef.unplaced).Unrepeated :=
  ⟨(memberNames_unplaced body).symm ▸ h.memberNames, (listed_unplaced body).symm ▸ h.listed⟩

section Added

variable {before after others : List Declaration} (hsplit : whole.Splits base pieces)
  (hplaced : Declaration.Placed base pieces rest others)
  (hrest : rest.map Declaration.plain = (before ++ after).map Declaration.plain)

include hsplit hplaced hrest

/-- What is split is put in as it was, up to positions and order. -/
private theorem assemble_split_unplaced (h : schema.Orderly) :
    ((schema.assemble (before ++ .type whole :: after)).2 = [] → (schema.assemble others).2 = [] ∧
        ((schema.assemble (before ++ .type whole :: after)).1.unplaced TypeRef.unplaced).Shuffled
          ((schema.assemble others).1.unplaced TypeRef.unplaced)) ∧
      ((schema.assemble others).2 = [] → (schema.assemble (before ++ .type whole :: after)).2 = []) := by
  have horderly := h.unplaced TypeRef.unplaced
  have hperm : ((before ++ .type whole :: after).map Declaration.plain).Perm
      (.type (whole.unplaced TypeRef.unplaced) :: rest.map Declaration.plain) := by
    rw [hrest]
    exact List.perm_middle.map Declaration.plain
  have hextensions : ((before ++ .type whole :: after).map Declaration.plain).filter Declaration.isExtension =
      (.type (whole.unplaced TypeRef.unplaced) :: rest.map Declaration.plain).filter Declaration.isExtension := by
    rw [hrest, List.filter_cons_of_neg Bool.false_ne_true, List.map_append, List.map_append, List.filter_append,
      List.filter_append, List.map_cons, List.filter_cons_of_neg Bool.false_ne_true]
  obtain ⟨hthere, hback⟩ := assemble_split horderly (unrepeated_unplaced hsplit.unrepeated) hsplit.joined
    (placed_unplaced hplaced)
  have hplain (declarations : List Declaration) :
      (schema.unplaced TypeRef.unplaced).assemble (declarations.map Declaration.plain) =
        ((schema.assemble declarations).1.unplaced TypeRef.unplaced,
          (schema.assemble declarations).2.map SchemaError.unplaced) :=
    schema.assemble_unplaced TypeRef.baseName_unplaced declarations
  rw [hplain] at hthere hback
  constructor
  · intro herrors
    have hsorted := assemble_shuffled horderly hperm hextensions (by rw [hplain, herrors]; rfl)
    rw [hplain] at hsorted
    obtain ⟨hnone, hshuffled⟩ := hthere hsorted.1
    exact ⟨List.map_eq_nil_iff.1 hnone, hsorted.2.trans hshuffled⟩
  · intro herrors
    have hsorted := assemble_shuffled horderly hperm.symm hextensions.symm (hback (by rw [herrors]; rfl))
    rw [hplain] at hsorted
    exact List.map_eq_nil_iff.1 hsorted.1

/-- Whether declarations are added to a reachable schema, and how it is written afterwards, does not change when one of
them is split into a base and extensions, as long as these come in order and before any other extension of it. -/
theorem Reachable.add_split (h : schema.Reachable) :
    ((schema.add (before ++ .type whole :: after)).2 = [] ↔ (schema.add others).2 = []) ∧
      ∀ layout, (schema.add (before ++ .type whole :: after)).1.text layout = (schema.add others).1.text layout := by
  obtain ⟨hthere, hback⟩ := assemble_split_unplaced hsplit hplaced hrest h.orderly
  refine add_congr (fun next hnext => declare?_resembling h.orderly hthere hnext) fun other hother => ?_
  have hother' := hother
  obtain ⟨herrors, -⟩ := declare?_eq_ok_iff.1 hother
  obtain ⟨-, hshuffled⟩ := hthere (hback herrors)
  obtain ⟨next, hnext, -⟩ :=
    declare?_resembling h.orderly (fun herrors => ⟨hback herrors, hshuffled.symm⟩) hother
  exact ⟨next, hnext⟩

end Added

private def film (pos : Pos) : TypeDecl where
  name := "Film"
  description := some "What is shown."
  pos
  body := .object
    { interfaces := [.unresolved "Titled" pos]
      fields := [{ name := "title", type := .unresolved "Text" pos }, { name := "genre", type := .unresolved "Text" pos }] }

/-- The film with its description and one field. -/
private def film₁ : TypeDecl where
  name := "Film"
  description := some "What is shown."
  body := .object { fields := [{ name := "title", type := .unresolved "Text" .start }] }

private def film₂ : TypeDecl := { name := "Film", body := .object { interfaces := [.unresolved "Titled" .start] } }

private def film₃ : TypeDecl where
  name := "Film"
  body := .object { fields := [{ name := "genre", type := .unresolved "Text" .start }] }

private def filmYear : Declaration :=
  .extension { name := "Film", body := .object { fields := [{ name := "year", type := .unresolved "Text" .start }] } }

private def titles : List Declaration :=
  [.type { name := "Titled", body := .interface { fields := [{ name := "title", type := .unresolved "Text" .start }] } },
    .type { name := "Text", body := .scalar .any }]

/-- A film may come in pieces, of which some stand before it, and be extended further. -/
theorem add_film_split :
    (({} : Schema).add ([filmYear] ++ .type (film ⟨1, 3⟩) :: titles)).2 = [] ∧
      ((({} : Schema).add ([filmYear] ++ .type (film ⟨1, 3⟩) :: titles)).2 = [] ↔
          (({} : Schema).add ([.extension film₂, .extension film₃] ++ .type film₁ :: filmYear :: titles)).2 = []) ∧
        ∀ layout, (({} : Schema).add ([filmYear] ++ .type (film ⟨1, 3⟩) :: titles)).1.text layout =
          (({} : Schema).add ([.extension film₂, .extension film₃] ++ .type film₁ :: filmYear :: titles)).1.text
            layout := by
  have hsplit : (film ⟨1, 3⟩).Splits film₁ [film₂, film₃] := ⟨⟨by decide, by decide⟩, rfl⟩
  exact ⟨by cbv, Reachable.empty.add_split hsplit ⟨List.perm_middle, rfl, rfl⟩ rfl⟩

end Schema

end GraphQL
