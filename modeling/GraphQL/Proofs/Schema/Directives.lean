import GraphQL.Proofs.Schema.Normal

/-!
# Uses of directives

Every use of a directive in a reachable schema is legal at its site (`Schema.Reachable.sites_legal`): the directive exists
and allows the location, its arguments are declared, those with a default or a non-null type are there, and none refers
to a variable. Validity says so of what is given. The defaults of what is left out are filled in when the schema is
brought into normal form, which is the last thing that is done with every batch.
-/

namespace GraphQL

namespace Schema

variable {schema : Schema} {declarations : List Declaration}

/-! ### Legal uses -/

/-- The use of the declared directive is legal at the location. -/
structure LegalUse (schema : Schema) (location : DirectiveLocation) (use : DirectiveUse) (decl : DirectiveDecl) :
    Prop where
  declared : schema.directive? use.name = some decl
  allowed : location ∈ decl.locations
  distinct : use.Distinct
  known : ∀ key ∈ Entries.keys use.args, ∃ arg ∈ decl.args, arg.name = key
  filled : ∀ arg ∈ decl.args, arg.default ≠ none → ∃ v, use.arg? arg.name = some v
  nonNull : ∀ arg ∈ decl.args, arg.type.isNonNull = true → ∃ v, use.arg? arg.name = some v ∧ v ≠ .null
  constant : ∀ entry ∈ use.args, entry.2.mentionsVar = false

/-- The uses at the site are legal, and a directive is used once if it is not repeatable. -/
structure LegalSite (schema : Schema) (site : Site) : Prop where
  legal : ∀ use ∈ site.uses, ∃ decl, schema.LegalUse site.location use decl
  once : ∀ use ∈ site.uses, ∀ decl, schema.directive? use.name = some decl → decl.repeatable = false →
    site.uses.countP (·.name == use.name) = 1

/-! ### What validity says of a site -/

private theorem usesFaults_site {what : String} {builtin : Bool} {location : DirectiveLocation} {value : InputValue}
    (h : schema.inputFaults what builtin location value = []) :
    schema.usesFaults location false [] (value.site location).uses = [] :=
  directivesFaults_eq_nil_iff.1 (inputFaults_eq_nil_iff.1 h).2.2.1

private theorem usesFaults_field {owner : String} {builtin : Bool} {field : FieldDef}
    (h : schema.fieldFaults owner builtin field = []) :
    ∀ site ∈ field.sites, schema.usesFaults site.location false [] site.uses = [] := by
  obtain ⟨-, -, hdirectives, hargs⟩ := fieldFaults_eq_nil_iff.1 h
  exact FieldDef.forall_sites_iff.2 ⟨directivesFaults_eq_nil_iff.1 hdirectives, fun arg harg =>
    usesFaults_site (hargs arg harg)⟩

private theorem usesFaults_body {type : TypeDecl} (h : schema.bodyFaults type = []) :
    ∀ site ∈ type.body.sites, schema.usesFaults site.location false [] site.uses = [] := by
  unfold bodyFaults at h
  cases hbody : type.body with
  | scalar _ | union _ | schema _ => exact nofun
  | object body | interface body =>
    rw [hbody] at h
    exact List.forall_mem_flatMap.2 fun field hfield => usesFaults_field ((objectFaults_eq_nil_iff.1 h).2.1 field hfield)
  | enum values =>
    rw [hbody] at h
    refine List.forall_mem_map.2 fun value hvalue => directivesFaults_eq_nil_iff.1 ?_
    have hvalue := List.flatMap_eq_nil_iff.1 (List.append_eq_nil_iff.1 h).2 value hvalue
    exact (List.append_eq_nil_iff.1 hvalue).2
  | input fields =>
    rw [hbody] at h
    refine List.forall_mem_map.2 fun field hfield => ?_
    exact usesFaults_site (List.flatMap_eq_nil_iff.1 (List.append_eq_nil_iff.1 h).2 field hfield)

/-- Nothing is wrong at any site of a valid schema. -/
theorem usesFaults_of_faults (h : schema.faults = []) :
    ∀ site ∈ schema.sites, schema.usesFaults site.location false [] site.uses = [] := by
  obtain ⟨htypes, hdirectives, -⟩ := faults_eq_nil_iff.1 h
  intro site hsite
  rcases mem_sites_iff.1 hsite with ⟨type, htype, hsite⟩ | ⟨decl, hdecl, hsite⟩
  · obtain ⟨-, huses, hbody⟩ := typeFaults_eq_nil_iff.1 (htypes type htype)
    rcases List.mem_cons.1 hsite with rfl | hsite
    · exact directivesFaults_eq_nil_iff.1 huses
    · exact usesFaults_body hbody site hsite
  · obtain ⟨arg, harg, rfl⟩ := List.mem_map.1 hsite
    exact usesFaults_site (List.flatMap_eq_nil_iff.1 (List.append_eq_nil_iff.1 (hdirectives decl hdecl)).2 arg harg)

/-- Behind earlier uses there is no other of a directive that is not repeatable. -/
theorem once_of_usesFaults {location : DirectiveLocation} {uses : List DirectiveUse} :
    ∀ {earlier : List String}, schema.usesFaults location false earlier uses = [] →
      ∀ use ∈ uses, (∃ earlier, schema.useFaults location false earlier use = []) ∧
        ∀ decl, schema.directive? use.name = some decl → decl.repeatable = false →
          use.name ∉ earlier ∧ uses.countP (·.name == use.name) = 1 := by
  induction uses with
  | nil => exact nofun
  | cons first rest ih =>
    intro earlier h
    obtain ⟨hfirst, hrest⟩ := usesFaults_cons_eq_nil_iff.1 h
    have ih := ih hrest
    refine List.forall_mem_cons.2 ⟨⟨⟨_, hfirst⟩, fun decl hdecl honce => ?_⟩, fun use huse => ⟨(ih use huse).1, ?_⟩⟩
    · obtain ⟨decl', hdecl', -, hnew, -⟩ := useFaults_eq_nil_iff.1 hfirst
      cases hdecl.symm.trans hdecl'
      have hlater : rest.countP (·.name == first.name) = 0 := by
        refine List.countP_eq_zero.2 fun use huse hname => ?_
        have hname : use.name = first.name := by simpa using hname
        exact ((ih use huse).2 decl (hname ▸ hdecl) honce).1 (hname ▸ List.mem_cons_self)
      refine ⟨by simpa [honce] using hnew, ?_⟩
      rw [List.countP_cons_of_pos (by simp), hlater]
    · intro decl hdecl honce
      obtain ⟨hnew, hcount⟩ := (ih use huse).2 decl hdecl honce
      obtain ⟨hother, hnew⟩ := not_or.1 (mt List.mem_cons.2 hnew)
      rw [List.countP_cons_of_neg (by simpa using Ne.symm hother)]
      exact ⟨hnew, hcount⟩

private theorem ne_null_of_accepts {type : TypeRef} {v : Value} (h : schema.Accepts type v)
    (htype : type.isNonNull = true) : v ≠ .null := by
  rintro rfl
  obtain ⟨-, w, hw⟩ := h
  unfold Coercion.coerceIn at hw
  rw [if_pos htype] at hw
  cases hw

/-! ### Sites in normal form -/

/-- The site with its uses in normal form. -/
def normalSite (schema : Schema) (site : Site) : Site :=
  { site with uses := site.uses.map (schema.coercion.normalUse false) }

private theorem sites_normalInput (location : DirectiveLocation) (args : List InputValue) :
    (args.map schema.coercion.normalInput).map (InputValue.site location) =
      (args.map (InputValue.site location)).map schema.normalSite := by
  rw [List.map_map, List.map_map]
  rfl

private theorem sites_normalField (field : FieldDef) :
    (schema.coercion.normalField field).sites = field.sites.map schema.normalSite := by
  rw [FieldDef.sites, FieldDef.sites, List.map_cons, ← sites_normalInput]
  rfl

private theorem sites_normalBody (body : TypeBody) :
    (schema.coercion.normalBody body).sites = body.sites.map schema.normalSite := by
  have hfields (fields : List FieldDef) : (fields.map schema.coercion.normalField).flatMap FieldDef.sites =
      (fields.flatMap FieldDef.sites).map schema.normalSite := by
    simp only [List.flatMap_map, List.map_flatMap, sites_normalField]
  cases body with
  | object body => exact hfields body.fields
  | interface body => exact hfields body.fields
  | enum values =>
    simp only [Coercion.normalBody, TypeBody.sites, List.map_map]
    rfl
  | input fields => exact sites_normalInput _ fields
  | scalar _ | union _ | schema _ => rfl

private theorem sites_normalType (type : TypeDecl) :
    (schema.coercion.normalType type).sites = type.sites.map schema.normalSite := by
  have hlocation : (schema.coercion.normalBody type.body).location = type.body.location := by cases type.body <;> rfl
  rw [TypeDecl.sites, TypeDecl.sites, List.map_cons, ← sites_normalBody]
  show (⟨(schema.coercion.normalBody type.body).location, _⟩ : Site) :: _ = _
  rw [hlocation]
  rfl

theorem sites_normal : schema.normal.sites = schema.sites.map schema.normalSite := by
  have htypes : schema.normal.types ++ schema.normal.declaration.toList =
      (schema.types ++ schema.declaration.toList).map schema.coercion.normalType := by
    simp only [Schema.normal, List.map_append, Option.toList_map]
    rfl
  have hdirectives : schema.normal.directives = schema.directives.map schema.coercion.normalDirective := rfl
  have hdirective (decl : DirectiveDecl) :
      (schema.coercion.normalDirective decl).sites = decl.sites.map schema.normalSite := sites_normalInput _ decl.args
  rw [sites, htypes, hdirectives, List.flatMap_map, List.flatMap_map, sites, List.map_append, List.map_flatMap,
    List.map_flatMap]
  simp only [sites_normalType, hdirective]

private theorem keys_missingDefaults_sublist (args : List InputValue) (given : List (String × Value)) :
    (Entries.keys (Coercion.missingDefaults args given)).Sublist (Members.names args) := by
  induction args with
  | nil => exact .slnil
  | cons arg rest ih =>
    unfold Coercion.missingDefaults at ih ⊢
    rw [List.filterMap_cons]
    split
    · exact ih.cons _
    · next entry hentry =>
      split at hentry
      · cases hentry
      · obtain ⟨v, -, rfl⟩ := Option.map_eq_some_iff.1 hentry
        exact ih.cons_cons _

private theorem not_mem_of_missingDefaults {args : List InputValue} {given : List (String × Value)} {key : String}
    (h : key ∈ Entries.keys (Coercion.missingDefaults args given)) : key ∉ Entries.keys given := by
  obtain ⟨entry, hentry, rfl⟩ := List.mem_map.1 h
  obtain ⟨arg, -, hmissing⟩ := List.mem_filterMap.1 hentry
  split at hmissing
  · cases hmissing
  · next hnew =>
    obtain ⟨v, -, rfl⟩ := Option.map_eq_some_iff.1 hmissing
    exact Entries.get?_eq_none_iff.1 (by simpa [Entries.contains] using hnew)

/-- In normal form the arguments of a use still have names of their own. -/
theorem distinct_normalUse {use : DirectiveUse} {decl : DirectiveDecl} (huse : use.Distinct)
    (hdecl : schema.directive? use.name = some decl) (hdistinct : Members.Distinct decl.args) :
    (schema.coercion.normalUse false use).Distinct := by
  have hgiven : Entries.keys (use.args.map (schema.coercion.normalArgument false decl.args)) =
      Entries.keys use.args := by
    rw [funext Coercion.normalArgument_eq]
    simp [Entries.keys]
  unfold DirectiveUse.Distinct
  rw [Coercion.args_normalUse hdecl, Entries.keys_append, hgiven]
  refine List.nodup_append.2 ⟨huse, (keys_missingDefaults_sublist _ _).nodup hdistinct, fun key hkey key' hkey' => ?_⟩
  rintro rfl
  exact not_mem_of_missingDefaults hkey' hkey

/-! ### Where uses come from -/

private theorem distinct_insert {d : Declaration} (h : ∀ site ∈ schema.sites, site.Distinct)
    (hd : ∀ site ∈ d.sites, site.Distinct) : ∀ site ∈ (schema.insert d).1.sites, site.Distinct := by
  intro site hsite
  cases d with
  | type type =>
    change site ∈ (schema.insertType type).1.sites at hsite
    unfold insertType at hsite
    split at hsite
    · split at hsite
      · exact h site hsite
      · next hnone =>
        have hnone : schema.declaration = none := by simpa using hnone
        simp only [mem_sites_iff, hnone, Option.toList, List.mem_append, List.mem_singleton] at hsite h
        grind [Declaration.sites]
    · split at hsite
      · exact h site hsite
      · simp only [mem_sites_iff, List.mem_append, List.mem_singleton] at hsite h
        grind [Declaration.sites]
  | directive decl =>
    change site ∈ (schema.insertDirective decl).1.sites at hsite
    unfold insertDirective at hsite
    split at hsite
    · exact h site hsite
    · simp only [mem_sites_iff, List.mem_append, List.mem_singleton] at hsite h
      grind [Declaration.sites]
  | extension more => exact h site hsite

private theorem mem_sites_extend {body more : TypeBody} {site : Site} (h : site ∈ (body.extend more).1.sites) :
    site ∈ body.sites ∨ site ∈ more.sites := by
  -- objects and interfaces are extended in the same way
  have hfields {fields more : List FieldDef} (h : site ∈ (addMembers fields more).1.flatMap FieldDef.sites) :
      site ∈ fields.flatMap FieldDef.sites ∨ site ∈ more.flatMap FieldDef.sites := by
    obtain ⟨field, hfield, hsite⟩ := List.mem_flatMap.1 h
    exact (List.mem_append.1 (addMembers_subset _ _ hfield)).imp (fun h => List.mem_flatMap.2 ⟨field, h, hsite⟩)
      fun h => List.mem_flatMap.2 ⟨field, h, hsite⟩
  have hmembers {α : Type} [HasName α] {f : α → Site} {members more : List α}
      (h : site ∈ (addMembers members more).1.map f) : site ∈ members.map f ∨ site ∈ more.map f := by
    obtain ⟨member, hmember, rfl⟩ := List.mem_map.1 h
    exact (List.mem_append.1 (addMembers_subset _ _ hmember)).imp List.mem_map_of_mem List.mem_map_of_mem
  unfold TypeBody.extend at h
  split at h
  · exact hfields h
  · exact hfields h
  · cases h
  · exact hmembers h
  · exact hmembers h
  · cases h
  · exact .inl h

private theorem distinct_typeExtend {type more : TypeDecl} (htype : ∀ site ∈ type.sites, site.Distinct)
    (hmore : ∀ site ∈ more.sites, site.Distinct) : ∀ site ∈ (type.extend more).1.sites, site.Distinct := by
  obtain ⟨htypeUses, htypeBody⟩ := List.forall_mem_cons.1 htype
  obtain ⟨hmoreUses, hmoreBody⟩ := List.forall_mem_cons.1 hmore
  unfold TypeDecl.extend
  split
  · refine List.forall_mem_cons.2 ⟨List.forall_mem_append.2 ⟨htypeUses, hmoreUses⟩, fun site hsite => ?_⟩
    exact (mem_sites_extend hsite).elim (htypeBody site) (hmoreBody site)
  · exact htype

private theorem distinct_extend {d : Declaration} (h : ∀ site ∈ schema.sites, site.Distinct)
    (hd : ∀ site ∈ d.sites, site.Distinct) : ∀ site ∈ (schema.extend d).1.sites, site.Distinct := by
  cases d with
  | type type => exact h
  | directive decl => exact h
  | extension more =>
    unfold Schema.extend
    dsimp only
    split
    · exact h
    · next type htype =>
      have htype : ∀ site ∈ type.sites, site.Distinct := fun site hsite =>
        h site (mem_sites_iff.2 (.inl ⟨type, mem_of_extended? htype, hsite⟩))
      intro site hsite
      rcases mem_sites_iff.1 hsite with ⟨other, hother, hsite⟩ | hsite
      · rcases mem_replace hother with rfl | hother
        · exact distinct_typeExtend htype hd site hsite
        · exact h site (mem_sites_iff.2 (.inl ⟨other, hother, hsite⟩))
      · rw [directives_replace] at hsite
        exact h site (mem_sites_iff.2 (.inr hsite))

private theorem sites_inputResolved (location : DirectiveLocation) (args : List InputValue) :
    (args.map InputValue.resolved).map (InputValue.site location) = args.map (InputValue.site location) :=
  map_map_congr (fun _ => rfl) args

private theorem sites_typeResolved (type : TypeDecl) : type.resolved.sites = type.sites := by
  have hfields (fields : List FieldDef) :
      (fields.map FieldDef.resolved).flatMap FieldDef.sites = fields.flatMap FieldDef.sites := by
    simp only [List.flatMap_map, FieldDef.sites, FieldDef.resolved, sites_inputResolved]
    rfl
  unfold TypeDecl.sites TypeDecl.resolved
  cases type.body with
  | object body | interface body => exact congrArg _ (hfields body.fields)
  | input fields => exact congrArg _ (sites_inputResolved _ fields)
  | scalar _ | union _ | enum _ | schema _ => rfl

theorem sites_resolved : schema.resolved.sites = schema.sites := by
  simp only [sites, resolved, List.flatMap_append, List.flatMap_map, Option.toList_map, sites_typeResolved,
    DirectiveDecl.resolved, DirectiveDecl.sites, sites_inputResolved]
  rfl

private theorem Declaration.IsRead.sites_distinct {d : Declaration} (h : d.IsRead) :
    ∀ site ∈ d.sites, site.Distinct := by
  rcases h with ⟨name, description, kind, rfl⟩ | ⟨schema, source, declarations, e, hread, he, hd⟩
  · exact List.forall_mem_singleton.2 nofun
  · have hdistinct := read?_sites hread e he
    rcases hd with rfl | rfl
    · exact hdistinct
    · cases e <;> exact hdistinct

/-- The names of the arguments of a use are distinct wherever declarations are put in that are read. -/
private theorem distinct_assemble (h : ∀ site ∈ schema.sites, site.Distinct)
    (hread : ∀ d ∈ declarations, d.IsRead) :
    ∀ site ∈ (schema.assemble declarations).1.resolved.sites, site.Distinct := by
  rw [sites_resolved]
  exact assemble_induction (P := fun assembled => ∀ site ∈ assembled.sites, site.Distinct)
    (fun _ d hd ih => distinct_insert ih (Declaration.IsRead.sites_distinct (hread d hd)))
    (fun _ d hd ih => distinct_extend ih (Declaration.IsRead.sites_distinct (hread d hd))) h

private theorem distinct_normalSite (hvalid : schema.Valid) (h : ∀ site ∈ schema.sites, site.Distinct) :
    ∀ site ∈ schema.normal.sites, site.Distinct := by
  rw [sites_normal]
  refine List.forall_mem_map.2 fun site hsite => List.forall_mem_map.2 fun use huse => ?_
  obtain ⟨hfaults, -⟩ := once_of_usesFaults (usesFaults_of_faults hvalid.faults site hsite) use huse
  obtain ⟨earlier, hfaults⟩ := hfaults
  obtain ⟨decl, hdecl, -⟩ := useFaults_eq_nil_iff.1 hfaults
  exact distinct_normalUse (h site hsite use huse) hdecl (hvalid.distinct.directives decl (Members.mem_of_get? hdecl))

/-! ### Reachable schemas -/

/-- The arguments of a use have distinct names. -/
theorem Reachable.sites_distinct (h : schema.Reachable) : ∀ site ∈ schema.sites, site.Distinct := by
  induction h with
  | empty => exact nofun
  | declare hschema hread hnext ih =>
    have hvalid := hschema.distinct.valid_resolved (fun d hd => (hread d hd).distinct) hnext
    obtain ⟨-, -, -, rfl⟩ := declare?_eq_ok_iff.1 hnext
    exact distinct_normalSite hvalid (distinct_assemble ih hread)

/-- Where a default is declared, there is a value. -/
theorem Reachable.sites_filled (h : schema.Reachable) :
    ∀ site ∈ schema.sites, ∀ use ∈ site.uses, ∀ decl, schema.directive? use.name = some decl →
      ∀ arg ∈ decl.args, arg.default ≠ none → ∃ v, use.arg? arg.name = some v := by
  cases h with
  | empty => exact nofun
  | declare hschema hread hnext =>
    have hvalid := hschema.distinct.valid_resolved (fun d hd => (hread d hd).distinct) hnext
    obtain ⟨-, -, -, rfl⟩ := declare?_eq_ok_iff.1 hnext
    generalize (Schema.assemble _ _).1.resolved = given at hvalid
    rw [sites_normal]
    refine List.forall_mem_map.2 fun site hsite => List.forall_mem_map.2 fun use huse normal hnormal => ?_
    rw [Coercion.name_normalUse, directive?_normal] at hnormal
    obtain ⟨decl, hdecl, rfl⟩ := Option.map_eq_some_iff.1 hnormal
    refine List.forall_mem_map.2 fun arg harg hdefault => ?_
    have hvalue := Coercion.arg?_normalUse (c := given.coercion) hdecl
      (hvalid.distinct.directives decl (Members.mem_of_get? hdecl)) harg
    obtain ⟨v, hv⟩ := Option.ne_none_iff_exists'.1 hdefault
    obtain ⟨w, hw, -⟩ := Option.map_eq_some_iff.1 hv
    rw [hw] at hvalue
    cases hgiven : use.arg? arg.name with
    | none => exact ⟨w, by rw [hgiven] at hvalue; exact hvalue⟩
    | some u => exact ⟨_, by rw [hgiven] at hvalue; exact hvalue⟩

/-- Every use of a directive in a reachable schema is legal at its site. -/
theorem Reachable.sites_legal (h : schema.Reachable) : ∀ site ∈ schema.sites, schema.LegalSite site := by
  intro site hsite
  have hfaults := once_of_usesFaults (usesFaults_of_faults h.valid.faults site hsite)
  refine ⟨fun use huse => ?_, fun use huse decl hdecl honce => ((hfaults use huse).2 decl hdecl honce).2⟩
  obtain ⟨⟨earlier, huseFaults⟩, -⟩ := hfaults use huse
  obtain ⟨decl, hdecl, hallowed, -, hknown, hargs⟩ := useFaults_eq_nil_iff.1 huseFaults
  have hdistinct := h.sites_distinct site hsite use huse
  have hfilled := h.sites_filled site hsite use huse decl hdecl
  have hknown (key : String) (hkey : key ∈ Entries.keys use.args) : ∃ arg ∈ decl.args, arg.name = key :=
    List.mem_map.1 (Members.contains_iff.1 (hknown key hkey))
  have hvalue {arg : InputValue} (harg : arg ∈ decl.args) := useArgumentFaults_eq_nil_iff.1 (hargs arg harg)
  refine ⟨decl, hdecl, List.contains_iff_mem.1 hallowed, hdistinct, hknown, hfilled, fun arg harg hnonNull => ?_, ?_⟩
  · have hgiven : ∃ v, use.arg? arg.name = some v := by
      by_cases hdefault : arg.default = none
      · refine Option.ne_none_iff_exists'.1 fun hnone => ?_
        have hrequired := (hvalue harg).2 hnone
        simp [InputValue.isRequired, hnonNull, hdefault] at hrequired
      · exact hfilled arg harg hdefault
    obtain ⟨v, hv⟩ := hgiven
    exact ⟨v, hv, ne_null_of_accepts ((hvalue harg).1 v hv) hnonNull⟩
  · rintro ⟨key, v⟩ hentry
    obtain ⟨arg, harg, rfl⟩ := hknown key (Entries.mem_keys_of_mem hentry)
    exact ((hvalue harg).1 v (Entries.get?_of_mem hdistinct hentry)).1

/-- A schema with a use that leaves out the argument. -/
private def tagged : Schema :=
  let source := "directive@d(x:E!=A)on OBJECT enum E{A}type Q@d{q:Q}".toUTF8.toList
  ((Schema.read? {} source).toOption.bind fun declarations => (Schema.declare? {} declarations).toOption).getD {}

private theorem tagged_reachable : tagged.Reachable := by
  unfold tagged
  dsimp only
  generalize "directive@d(x:E!=A)on OBJECT enum E{A}type Q@d{q:Q}".toUTF8.toList = source
  cases hread : Schema.read? {} source with
  | error e => exact .empty
  | ok declarations =>
    cases hnext : Schema.declare? {} declarations with
    | error errors => simp [Except.toOption, hnext, Reachable.empty]
    | ok next =>
      refine @Reachable.declare _ _ declarations .empty (fun d hd => .inr ⟨_, _, _, d, hread, hd, .inl rfl⟩) ?_
      simp [Except.toOption, hnext]

theorem tagged_legal :
    (tagged.sites.map fun site => (site.location, site.uses.map fun use => (use.name, Entries.keys use.args))) =
        [(.enum, []), (.enumValue, []), (.object, [("d", ["x"])]), (.fieldDefinition, []),
          (.argumentDefinition, [])] ∧
      ∀ site ∈ tagged.sites, tagged.LegalSite site :=
  ⟨by decide +kernel, tagged_reachable.sites_legal⟩

end Schema

end GraphQL
