import GraphQL.Proofs.Schema.Inheritance
import GraphQL.Proofs.Schema.Inserted

/-!
# Subtypes

Lists and non-null marks aside, one type is a subtype of another if they are the same, or if the second is an interface
or a union and the first is possible for it. In valid schemas such steps chain: members of unions are objects, so that
nothing is possible for them, and what is possible for an interface is possible for those that it implements. Subtyping
is thus an order of references, and a subtype can only be of object types that its supertype can be of
(`Schema.Reachable.isSubtype_sound`).
-/

namespace GraphQL

namespace Schema

variable {schema : Schema} {name abstract : String}

/-! ### Possible types -/

theorem implements_trans {middle interface : String} (h : schema.implements name middle = true)
    (h' : schema.implements middle interface = true) : schema.implements name interface = true :=
  implements_of_transGen ((transGen_of_implements h).trans (transGen_of_implements h'))

/-- What implements an interface is an object or an interface. -/
theorem body_of_implements {decl : TypeDecl} (hdecl : schema.type? name = some decl) {interface : String}
    (h : schema.implements name interface = true) : ∃ body, decl.body = .object body ∨ decl.body = .interface body := by
  obtain ⟨_, ⟨found, hfound, hlisted⟩, -⟩ := Relation.TransGen.head'_iff.1 (transGen_of_implements h)
  cases hdecl.symm.trans hfound
  unfold TypeDecl.interfaces at hlisted
  cases hbody : decl.body with
  | object body => exact ⟨body, .inl rfl⟩
  | interface body => exact ⟨body, .inr rfl⟩
  | scalar _ | union _ | enum _ | input _ | schema _ => simp [hbody] at hlisted

theorem isPossible_union {decl : TypeDecl} {members : List TypeRef} (hdecl : schema.type? abstract = some decl)
    (hbody : decl.body = .union members) :
    schema.isPossible abstract name = true ↔ name ∈ members.map TypeRef.baseName := by
  simp [isPossible, hdecl, hbody]

theorem isPossible_interface {decl : TypeDecl} {body : ObjectBody} (hdecl : schema.type? abstract = some decl)
    (hbody : decl.body = .interface body) : schema.isPossible abstract name = schema.implements name abstract := by
  simp [isPossible, hdecl, hbody]

/-- Only for unions and interfaces other types are possible. -/
theorem cases_of_isPossible (h : schema.isPossible abstract name = true) :
    ∃ decl, schema.type? abstract = some decl ∧
      ((∃ members, decl.body = .union members ∧ name ∈ members.map TypeRef.baseName) ∨
        ∃ body, decl.body = .interface body ∧ schema.implements name abstract = true) := by
  cases hdecl : schema.type? abstract with
  | none => simp [isPossible, hdecl] at h
  | some decl =>
    refine ⟨decl, rfl, ?_⟩
    cases hbody : decl.body with
    | union members => exact .inl ⟨members, rfl, (isPossible_union hdecl hbody).1 h⟩
    | interface body => exact .inr ⟨body, rfl, (isPossible_interface hdecl hbody) ▸ h⟩
    | scalar _ | object _ | enum _ | input _ | schema _ => simp [isPossible, hdecl, hbody] at h

/-- The members of a union of a valid schema are objects. -/
theorem Valid.isObject_member (h : schema.Valid) {decl : TypeDecl} (hdecl : schema.type? abstract = some decl)
    {members : List TypeRef} (hbody : decl.body = .union members) {member : TypeRef} (hmember : member ∈ members) :
    ∃ type, schema.named? member = some type ∧ type.isObject = true := by
  have huse : ⟨.object, member⟩ ∈ schema.uses :=
    mem_uses_iff.2 (.inl ⟨decl, List.mem_append_left _ (Members.mem_of_get? hdecl), hbody ▸ List.mem_map_of_mem hmember⟩)
  exact fits_of_faults h.faults huse nofun

/-- What is possible for a type of a valid schema is possible for whatever that is possible for. -/
theorem Valid.isPossible_trans (h : schema.Valid) {middle : String} (hlower : schema.isPossible middle name = true)
    (hupper : schema.isPossible abstract middle = true) : schema.isPossible abstract name = true := by
  obtain ⟨decl, hdecl, hcases⟩ := cases_of_isPossible hlower
  obtain ⟨top, htop, ⟨members, hbody, hlisted⟩ | ⟨body, hbody, himplements⟩⟩ := cases_of_isPossible hupper
  · -- nothing is possible for a member of a union
    obtain ⟨member, hmember, rfl⟩ := List.mem_map.1 hlisted
    obtain ⟨type, htype, hobject⟩ := h.isObject_member htop hbody hmember
    cases hdecl.symm.trans htype
    rcases hcases with ⟨_, hcase, -⟩ | ⟨_, hcase, -⟩ <;> simp [TypeDecl.isObject, hcase] at hobject
  · rw [isPossible_interface htop hbody]
    rcases hcases with ⟨_, hcase, -⟩ | ⟨_, -, hlower⟩
    · obtain ⟨_, hcase' | hcase'⟩ := body_of_implements hdecl himplements <;> cases hcase.symm.trans hcase'
    · exact implements_trans hlower himplements

/-- The possible types of a type of a valid schema are objects, and only interfaces and unions have any. -/
theorem Valid.object_of_mem_possibleTypes (h : schema.Valid) {decl type : TypeDecl}
    (hdecl : schema.type? abstract = some decl) (hmem : type ∈ schema.possibleTypes abstract) :
    type ∈ schema.types ∧ type.isObject = true ∧ decl.isAbstract = true := by
  unfold possibleTypes at hmem
  unfold TypeDecl.isAbstract
  cases hbody : decl.body with
  | union members =>
    simp only [hdecl, Option.map_some, hbody, List.mem_filterMap] at hmem
    obtain ⟨member, hmember, hnamed⟩ := hmem
    obtain ⟨found, hfound, hobject⟩ := h.isObject_member hdecl hbody hmember
    cases hnamed.symm.trans hfound
    exact ⟨Members.mem_of_get? hnamed, hobject, rfl⟩
  | interface body =>
    simp only [hdecl, Option.map_some, hbody, List.mem_filter, Bool.and_eq_true] at hmem
    exact ⟨hmem.1, hmem.2.1, rfl⟩
  | scalar _ | object _ | enum _ | input _ | schema _ => simp [hdecl, hbody] at hmem

/-- An object type is possible for an interface or a union exactly if it is one of its possible types. -/
theorem Reachable.isPossible_iff_mem (h : schema.Reachable) {decl type : TypeDecl}
    (hdecl : schema.type? abstract = some decl) (habstract : decl.isAbstract = true) (htype : type ∈ schema.types)
    (hobject : type.isObject = true) :
    schema.isPossible abstract type.name = true ↔ type ∈ schema.possibleTypes abstract := by
  have hget : schema.type? type.name = some type := h.orderly.types.get?_of_mem htype
  cases hbody : decl.body with
  | union members =>
    rw [isPossible_union hdecl hbody]
    unfold possibleTypes
    simp only [hdecl, Option.map_some, hbody, List.mem_map, List.mem_filterMap]
    constructor
    · rintro ⟨member, hmember, hname⟩
      exact ⟨member, hmember, by rw [named?, hname, hget]⟩
    · rintro ⟨member, hmember, hnamed⟩
      exact ⟨member, hmember, (Members.name_of_get? hnamed).symm⟩
  | interface body =>
    rw [isPossible_interface hdecl hbody]
    unfold possibleTypes
    simp [hdecl, hbody, htype, hobject]
  | scalar _ | object _ | enum _ | input _ | schema _ => simp [TypeDecl.isAbstract, hbody] at habstract

/-! ### What a value of a type can be -/

/-- The object types that a value of the named type can be of: an object type itself, and the possible types of an
interface or a union. -/
def objectTypes (schema : Schema) (name : String) : List TypeDecl :=
  match schema.type? name with
  | some decl => if decl.isObject then [decl] else schema.possibleTypes name
  | none => []

theorem Reachable.mem_objectTypes_iff (h : schema.Reachable) {type : TypeDecl} :
    type ∈ schema.objectTypes name ↔
      type ∈ schema.types ∧ type.isObject = true ∧ (type.name = name ∨ schema.isPossible name type.name = true) := by
  unfold objectTypes
  constructor
  · intro hmem
    cases hdecl : schema.type? name with
    | none => simp [hdecl] at hmem
    | some decl =>
      simp only [hdecl] at hmem
      split at hmem
      · next hobject =>
        cases List.mem_singleton.1 hmem
        exact ⟨Members.mem_of_get? hdecl, hobject, .inl (Members.name_of_get? hdecl)⟩
      · obtain ⟨htype, hobject, habstract⟩ := h.valid.object_of_mem_possibleTypes hdecl hmem
        exact ⟨htype, hobject, .inr ((h.isPossible_iff_mem hdecl habstract htype hobject).2 hmem)⟩
  · rintro ⟨htype, hobject, rfl | hpossible⟩
    · simp [show schema.type? type.name = some type from h.orderly.types.get?_of_mem htype, hobject]
    · obtain ⟨decl, hdecl, hcases⟩ := cases_of_isPossible hpossible
      have habstract : decl.isAbstract = true ∧ decl.isObject = false := by
        rcases hcases with ⟨_, hbody, -⟩ | ⟨_, hbody, -⟩ <;> simp [TypeDecl.isAbstract, TypeDecl.isObject, hbody]
      simpa [hdecl, habstract.2] using (h.isPossible_iff_mem hdecl habstract.1 htype hobject).1 hpossible

/-! ### Subtypes -/

theorem isSubtype_refl (type : TypeRef) : schema.isSubtype type type = true := by
  induction type with
  | named _ | unresolved _ _ => simp [isSubtype]
  | list _ ih | nonNull _ ih => simpa [isSubtype] using ih

/-- A subtype may be marked non-null where its supertype is not. -/
theorem isSubtype_nonNull_left {sub super : TypeRef} (h : super.isNonNull = false) :
    schema.isSubtype (.nonNull sub) super = schema.isSubtype sub super := by
  cases super with
  | nonNull _ => cases h
  | named _ | unresolved _ _ | list _ => simp only [isSubtype]

private theorem exists_eq_nonNull {type : TypeRef} (h : type.isNonNull = true) : ∃ inner, type = .nonNull inner := by
  cases type with
  | nonNull inner => exact ⟨inner, rfl⟩
  | named _ | unresolved _ _ | list _ => cases h

/-- The subtypes of what is marked non-null are so as well. -/
theorem nonNull_of_isSubtype {sub super : TypeRef} (h : schema.isSubtype sub (.nonNull super) = true) :
    ∃ inner, sub = .nonNull inner := by
  cases sub with
  | nonNull inner => exact ⟨inner, rfl⟩
  | named _ | unresolved _ _ | list _ => simp [isSubtype] at h

/-- The supertypes of a list are lists. -/
theorem list_of_isSubtype {sub super : TypeRef} (h : schema.isSubtype (.list sub) super = true) :
    ∃ item, super = .list item ∧ schema.isSubtype sub item = true := by
  cases super with
  | list item => exact ⟨item, rfl, by simpa [isSubtype] using h⟩
  | named _ | unresolved _ _ | nonNull _ => simp [isSubtype] at h

/-- The supertypes of a name are names: itself, and those that it is possible for. -/
theorem isSubtype_of_ownName? {sub super : TypeRef} (hsub : sub.ownName?.isSome) :
    schema.isSubtype sub super = true ↔ super.ownName?.isSome ∧
      (sub.baseName = super.baseName ∨ schema.isPossible super.baseName sub.baseName = true) := by
  cases sub <;> cases super <;> simp_all [TypeRef.ownName?, isSubtype]

private theorem Valid.named_isSubtype_trans (h : schema.Valid) {sub middle super : TypeRef} (hsub : sub.ownName?.isSome)
    (hlower : schema.isSubtype sub middle = true) (hupper : schema.isSubtype middle super = true) :
    schema.isSubtype sub super = true := by
  obtain ⟨hmiddle, hlower⟩ := (isSubtype_of_ownName? hsub).1 hlower
  obtain ⟨hsuper, hupper⟩ := (isSubtype_of_ownName? hmiddle).1 hupper
  refine (isSubtype_of_ownName? hsub).2 ⟨hsuper, ?_⟩
  rcases hlower with hsame | hlower
  · rwa [hsame]
  · rcases hupper with hsame | hupper
    · exact .inr (hsame ▸ hlower)
    · exact .inr (h.isPossible_trans hlower hupper)

theorem Valid.isSubtype_trans (h : schema.Valid) {sub middle super : TypeRef}
    (hlower : schema.isSubtype sub middle = true) (hupper : schema.isSubtype middle super = true) :
    schema.isSubtype sub super = true := by
  induction sub generalizing middle super with
  | named _ | unresolved _ _ => exact h.named_isSubtype_trans rfl hlower hupper
  | list item ih =>
    obtain ⟨middle, rfl, hlower⟩ := list_of_isSubtype hlower
    obtain ⟨super, rfl, hupper⟩ := list_of_isSubtype hupper
    simpa [isSubtype] using ih hlower hupper
  | nonNull inner ih =>
    cases hsuper : super.isNonNull with
    | true =>
      -- both marks are there in all three references
      obtain ⟨super, rfl⟩ := exists_eq_nonNull hsuper
      obtain ⟨middle, rfl⟩ := nonNull_of_isSubtype hupper
      rw [isSubtype] at hlower hupper ⊢
      exact ih hlower hupper
    | false =>
      rw [isSubtype_nonNull_left hsuper]
      cases hmiddle : middle.isNonNull with
      | true =>
        obtain ⟨middle, rfl⟩ := exists_eq_nonNull hmiddle
        rw [isSubtype] at hlower
        rw [isSubtype_nonNull_left hsuper] at hupper
        exact ih hlower hupper
      | false =>
        rw [isSubtype_nonNull_left hmiddle] at hlower
        exact ih hlower hupper

/-- In a reachable schema subtyping is an order of references. A value of a subtype can only be of object types that one
of the supertype can be of, where an object type is possible for an interface or a union exactly if it is one of its
possible types. -/
theorem Reachable.isSubtype_sound (h : schema.Reachable) :
    (∀ type, schema.isSubtype type type = true) ∧
      (∀ sub middle super, schema.isSubtype sub middle = true → schema.isSubtype middle super = true →
        schema.isSubtype sub super = true) ∧
      (∀ sub super, schema.isSubtype (.named sub) (.named super) = true →
        ∀ type ∈ schema.objectTypes sub, type ∈ schema.objectTypes super) ∧
      ∀ abstract decl, schema.type? abstract = some decl → decl.isAbstract = true →
        ∀ type ∈ schema.types, type.isObject = true →
          (schema.isPossible abstract type.name = true ↔ type ∈ schema.possibleTypes abstract) := by
  refine ⟨isSubtype_refl, fun _ _ _ => h.valid.isSubtype_trans, fun sub super hsub type hmem => ?_,
    fun _ _ hdecl habstract type htype => h.isPossible_iff_mem hdecl habstract htype⟩
  obtain ⟨-, hsame | hpossible⟩ := (isSubtype_of_ownName? rfl).1 hsub
  · exact (show sub = super from hsame) ▸ hmem
  · obtain ⟨htype, hobject, hname⟩ := h.mem_objectTypes_iff.1 hmem
    refine h.mem_objectTypes_iff.2 ⟨htype, hobject, .inr ?_⟩
    rcases hname with rfl | hlower
    · exact hpossible
    · exact h.valid.isPossible_trans hlower hpossible

/-- What is read from `interface I{i:I}interface J implements I{i:J}type T implements I&J{i:T}union U=T`. -/
private def ladder : List TypeDecl :=
  let body (name : String) (interfaces : List TypeRef) (column : Nat) : ObjectBody :=
    { interfaces, fields := [{ name := "i", type := .unresolved name ⟨1, column + 2⟩, pos := ⟨1, column⟩ }] }
  [{ name := "I", pos := ⟨1, 1⟩, body := .interface (body "I" [] 13) },
    { name := "J", pos := ⟨1, 17⟩, body := .interface (body "J" [.unresolved "I" ⟨1, 40⟩] 42) },
    { name := "T", pos := ⟨1, 46⟩,
      body := .object (body "T" [.unresolved "I" ⟨1, 64⟩, .unresolved "J" ⟨1, 66⟩] 68) },
    { name := "U", pos := ⟨1, 72⟩, body := .union [.unresolved "T" ⟨1, 80⟩] }]

private theorem ladder_read :
    Schema.read? {} "interface I{i:I}interface J implements I{i:J}type T implements I&J{i:T}union U=T".toUTF8.toList =
      .ok (ladder.map .type) := by
  have hbytes : "interface I{i:I}interface J implements I{i:J}type T implements I&J{i:T}union U=T".toUTF8.toList =
      [105, 110, 116, 101, 114, 102, 97, 99, 101, 32, 73, 123, 105, 58, 73, 125, 105, 110, 116, 101, 114, 102, 97, 99,
        101, 32, 74, 32, 105, 109, 112, 108, 101, 109, 101, 110, 116, 115, 32, 73, 123, 105, 58, 74, 125, 116, 121, 112,
        101, 32, 84, 32, 105, 109, 112, 108, 101, 109, 101, 110, 116, 115, 32, 73, 38, 74, 123, 105, 58, 84, 125, 117,
        110, 105, 111, 110, 32, 85, 61, 84] := by
    decide +kernel
  rw [hbytes]
  cbv

private def climbed : Schema where
  types := ladder.map TypeDecl.resolved

private theorem climbed_reachable : climbed.Reachable := by
  have hdeclare : Schema.declare? {} (ladder.map .type) = .ok climbed := by cbv
  exact .declare .empty (fun d hd => .inr ⟨_, _, _, d, ladder_read, hd, .inl rfl⟩) hdeclare

/-- The step from `T` over `J` to `I`, inside lists and marks, and what values of the two interfaces can be. -/
theorem climbed_sound :
    climbed.Reachable ∧
      climbed.isSubtype (.nonNull (.list (.nonNull (.named "T")))) (.list (.named "J")) = true ∧
      climbed.isSubtype (.list (.named "J")) (.list (.named "I")) = true ∧
      climbed.isSubtype (.nonNull (.list (.nonNull (.named "T")))) (.list (.named "I")) = true ∧
      Members.names (climbed.objectTypes "J") = ["T"] ∧
      (∀ type ∈ climbed.objectTypes "J", type ∈ climbed.objectTypes "I") ∧
      ∃ type ∈ climbed.possibleTypes "U", climbed.isPossible "U" type.name = true := by
  have hlower : climbed.isSubtype (.nonNull (.list (.nonNull (.named "T")))) (.list (.named "J")) = true := by cbv
  have hupper : climbed.isSubtype (.list (.named "J")) (.list (.named "I")) = true := by cbv
  have hnamed : climbed.isSubtype (.named "J") (.named "I") = true := by cbv
  have hunion : climbed.type? "U" = some { name := "U", pos := ⟨1, 72⟩, body := .union [.named "T"] } := by cbv
  have hobject : ∃ type ∈ climbed.types, type.isObject = true ∧ type.name = "T" :=
    ⟨_, List.mem_of_getElem? (i := 2) rfl, rfl, rfl⟩
  obtain ⟨type, htype, hobject, hname⟩ := hobject
  obtain ⟨-, htrans, hsound, hpossible⟩ := climbed_reachable.isSubtype_sound
  refine ⟨climbed_reachable, hlower, hupper, htrans _ _ _ hlower hupper, by cbv, hsound _ _ hnamed, type, ?_⟩
  have hmember : climbed.isPossible "U" type.name = true := by
    rw [hname]
    cbv
  exact ⟨(hpossible _ _ hunion rfl type htype hobject).1 hmember, hmember⟩

end Schema

end GraphQL
