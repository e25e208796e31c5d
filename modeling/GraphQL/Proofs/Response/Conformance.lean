import GraphQL.Proofs.Execution.Collected

/-!
# Responses that conform to a request

`Scope.Conforms` says that a value is what a selection set asks for at a place of a declared type: `null`, a list of
conforming items, an object of a possible type with the selected keys in their order, or a leaf that its type allows.
Where the type does not allow `null`, a `null` must have been reported: `Host.Reports` says that an error leads to the
place, save for labels of spreads on the way, and for the path that an error of the application brings along.
-/

namespace GraphQL

/-! ### Errors and the places they lead to -/

/-- The second path is the first with labels of spreads put in. -/
inductive Labelled : List PathSegment → List PathSegment → Prop
  | nil : Labelled [] []
  | cons {place path : List PathSegment} (segment : PathSegment) (h : Labelled place path) :
      Labelled (segment :: place) (segment :: path)
  | label {place path : List PathSegment} (pos : Pos) (h : Labelled place path) :
      Labelled place (Scope.spreadLabel pos :: path)

/-- The paths that errors have where they arise: those of the application may bring one along. -/
inductive Host.OwnPath {ω ε α : Type} (host : Host ω ε α) : List PathSegment → Prop
  | none : host.OwnPath []
  | resolver {o : ω} {head : FieldHead} {args : Arguments} {runtime : Runtime ε α} {e : Error}
      (h : (host.resolve o head args runtime).1 = .error e) : host.OwnPath e.path
  | untyped {v : Value} {head : FieldHead} {args : Arguments} {e : Error}
      (h : host.untyped.resolve v head args = .error e) : host.OwnPath e.path
  | item {o : ω} {items : List (Except Error (Data ω ε))} {e : Error} (h : host.items? o = some items)
      (he : .error e ∈ items) : host.OwnPath e.path
  | untypedItem {v : Value} {items : List (Except Error (Data ω ε))} {e : Error}
      (h : host.untyped.items? v = some items) (he : .error e ∈ items) : host.OwnPath e.path

/-- One of the errors leads to the place. -/
def Host.Reports {ω ε α : Type} (host : Host ω ε α) (errors : List Error) (place : List PathSegment) : Prop :=
  ∃ e ∈ errors, ∃ own, host.OwnPath own ∧ Labelled (place ++ own) e.path

/-! ### Values and what is expected of them -/

/-- An object of the declared type may have the type `target`. -/
def Schema.MayBe (schema : Schema) (declared target : TypeDecl) : Prop :=
  target.isObject = true ∧ schema.type? target.name = some target ∧
    (target = declared ∨ declared.isAbstract = true ∧ schema.isPossible declared.name target.name = true)

/-- There may be objects of type `target` in a value of the given type. -/
def Schema.MayHold (schema : Schema) (type : TypeRef) (target : TypeDecl) : Prop :=
  ∃ decl, schema.named? type = some decl ∧ schema.MayBe decl target

namespace Schema

variable {schema : Schema} {name : String} {decl : TypeDecl}

theorem type?_name (h : schema.type? name = some decl) : decl.name = name := Members.name_of_get? h

theorem type?_self (h : schema.type? name = some decl) : schema.type? decl.name = some decl := by
  rw [type?_name h]
  exact h

/-- An object type is the only one that its objects may have. -/
theorem mayBe_self (hobject : decl.isObject = true) (h : schema.type? name = some decl) : schema.MayBe decl decl :=
  ⟨hobject, type?_self h, .inl rfl⟩

end Schema

/-- What is expected at a place of a response. -/
inductive Expected where
  /-- A value of a declared type. -/
  | value (type : TypeRef)
  /-- An object of a type. -/
  | object (type : TypeDecl)

namespace Scope

variable {ω ε α : Type}

/-- The type of a field of an object of type `parent`, if there is such a field. Of `__typename` only the value is
known. -/
def fieldType? (scope : Scope ω ε α) (parent : TypeDecl) (head : FieldHead) : Option TypeRef :=
  if head.name = "__typename" then none
  else if scope.isQueryRoot parent && head.name == "__schema" then some (.nonNull (.named "__Schema"))
  else if scope.isQueryRoot parent && head.name == "__type" then some (.named "__Type")
  else (parent.field? head.name).map FieldDef.type

theorem introspection?_type (scope : Scope ω ε α) (parent : TypeDecl) {head : FieldHead}
    (hname : head.name ≠ "__typename") :
    match scope.introspection? parent head with
    | some (.ok (_, type)) => scope.fieldType? parent head = some type
    | some (.error _) => scope.fieldType? parent head = some (.named "__Type")
    | none => scope.fieldType? parent head = (parent.field? head.name).map FieldDef.type := by
  unfold introspection? fieldType?
  cases hroot : scope.isQueryRoot parent with
  | false => simp [hname]
  | true =>
    by_cases hschema : head.name = "__schema"
    · simp [hschema]
    · by_cases htype : head.name = "__type"
      · cases scope.namedNode head <;> simp [htype, Except.map]
      · simp [hname, hschema, htype]

/-- Objects of an abstract type get one of its possible types. -/
theorem concreteType_mayBe {scope : Scope ω ε α} {decl : TypeDecl} (habstract : decl.isAbstract = true)
    {data : Data ω ε} {target : TypeDecl} (h : scope.concreteType decl.name data = .ok target) :
    scope.schema.MayBe decl target := by
  unfold concreteType at h
  split at h
  · next found hfound =>
    obtain ⟨name, _, hname⟩ := Option.bind_eq_some_iff.1 hfound
    split at h
    · next hpossible =>
      cases h
      rw [Bool.and_eq_true] at hpossible
      exact ⟨hpossible.1, Schema.type?_self hname, .inr ⟨habstract, hpossible.2⟩⟩
    · cases h
  · cases h

/-- An object of type `parent` has the field. -/
def hasField (scope : Scope ω ε α) (parent : TypeDecl) (field : CollectedField) : Bool :=
  field.head.name == "__typename" || (scope.fieldType? parent field.head).isSome

/-- The value is what is expected where `selections` are selected and the fragments `left` may be entered. Places that
are `reported` may be `null` in spite of their type. -/
inductive Conforms (scope : Scope ω ε α) :
    (List PathSegment → Prop) → Expected → List Fragment → List Selection → Value → Prop
  | null {reported : List PathSegment → Prop} {left : List Fragment} {selections : List Selection} {type : TypeRef}
      (h : type.isNonNull = false) : scope.Conforms reported (.value type) left selections .null
  | nonNull {reported : List PathSegment → Prop} {left : List Fragment} {selections : List Selection}
      {inner : TypeRef} {v : Value} (h : scope.Conforms reported (.value inner) left selections v)
      (hnull : v = .null → reported []) : scope.Conforms reported (.value (.nonNull inner)) left selections v
  | list {reported : List PathSegment → Prop} {left : List Fragment} {selections : List Selection}
      {item : TypeRef} {items : List Value}
      (h : ∀ index v, items[index]? = some v →
        scope.Conforms (fun place => reported (.index index :: place)) (.value item) left selections v) :
      scope.Conforms reported (.value (.list item)) left selections (.list items)
  | composite {reported : List PathSegment → Prop} {left : List Fragment} {selections : List Selection}
      {type : TypeRef} {name : String} {decl target : TypeDecl} {v : Value} (hname : type.ownName? = some name)
      (hdecl : scope.schema.type? name = some decl) (htarget : scope.schema.MayBe decl target)
      (h : scope.Conforms reported (.object target) left selections v) :
      scope.Conforms reported (.value type) left selections v
  | scalar {reported : List PathSegment → Prop} {left : List Fragment} {selections : List Selection}
      {type : TypeRef} {name : String} {decl : TypeDecl} {kind : ScalarKind} {u v : Value}
      (hname : type.ownName? = some name) (hdecl : scope.schema.type? name = some decl)
      (hkind : decl.body = .scalar kind) (h : kind.coerceOut u = .ok v) :
      scope.Conforms reported (.value type) left selections v
  | enum {reported : List PathSegment → Prop} {left : List Fragment} {selections : List Selection}
      {type : TypeRef} {name : String} {decl : TypeDecl} {values : List EnumValue} {symbol : String}
      (hname : type.ownName? = some name) (hdecl : scope.schema.type? name = some decl)
      (hvalues : decl.body = .enum values) (h : Members.contains symbol values = true) :
      scope.Conforms reported (.value type) left selections (.enum symbol)
  | object {reported : List PathSegment → Prop} {left : List Fragment} {selections : List Selection}
      {target : TypeDecl} {entries : List (String × Value)}
      (hkeys : Entries.keys entries =
        ((scope.collected target left selections).filter (scope.hasField target)).map CollectedField.key)
      (htypename : ∀ field ∈ scope.collected target left selections, ∀ v, field.head.name = "__typename" →
        (field.key, v) ∈ entries → v = .string target.name)
      (hvalues : ∀ field ∈ scope.collected target left selections, ∀ type v,
        scope.fieldType? target field.head = some type → (field.key, v) ∈ entries →
          scope.Conforms (fun place => reported (.key field.key :: place)) (.value type) field.left field.children v) :
      scope.Conforms reported (.object target) left selections (.object entries)

end Scope

end GraphQL
