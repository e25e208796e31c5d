import GraphQL.Proofs.Response.Hidden

/-!
# Executions with other resolvers

Two executions of an operation may have different resolvers. The fields that are met (`Scope.Meets`) are those that
resolvers are asked for, or would be. If the resolvers agree on all of them outside one place of the response
(`Scope.AgreesBeside`), results can be compared beside that place. Data is completed to the same value there
(`Scope.complete_beside`) if the objects in it are shaped alike.
-/

namespace GraphQL

variable {ω ε α : Type}

/-! ### Other resolvers -/

/-- How fields of objects and of plain values are resolved. -/
structure Resolvers (ω ε α : Type) where
  object : ω → FieldHead → Arguments → Runtime ε α → Except Error (Data ω ε) × Runtime ε α
  value : Value → FieldHead → Arguments → Except Error (Data ω ε)

/-- The application with other resolvers. -/
def Host.resolvedBy (host : Host ω ε α) (resolvers : Resolvers ω ε α) : Host ω ε α :=
  { host with resolve := resolvers.object, untyped := { host.untyped with resolve := resolvers.value } }

/-- The service with other resolvers. -/
def Service.resolvedBy (service : Service ω ε α) (resolvers : Resolvers ω ε α) : Service ω ε α :=
  { service with host := service.host.resolvedBy resolvers }

/-- What resolvers give does not depend on what happened before. -/
def Host.Stateless (host : Host ω ε α) : Prop :=
  ∀ o head args runtime runtime', (host.resolve o head args runtime).1 = (host.resolve o head args runtime').1

/-- The resolvers give the same for a field of data. The fields of introspection are not up to them. -/
def Host.Agrees (host : Host ω ε α) (resolvers : Resolvers ω ε α) (data : Data ω ε) (head : FieldHead)
    (args : Arguments) : Prop :=
  match data with
  | .object o => ∀ runtime, (host.resolve o head args runtime).1 = (resolvers.object o head args runtime).1
  | .value v => host.untyped.resolve v head args = resolvers.value v head args
  | .null | .list _ | .node _ | .endpoint _ => True

namespace Scope

/-- The execution in a copy of the same request, with other resolvers. -/
def resolvedBy (scope : Scope ω ε α) (resolvers : Resolvers ω ε α) (copy shared : Nat) : Scope ω ε α :=
  { scope with service := scope.service.resolvedBy resolvers, copy, shared }

section ResolvedBy

variable (scope : Scope ω ε α) (resolvers : Resolvers ω ε α) (copy shared : Nat)

@[simp]
theorem schema_resolvedBy : (scope.resolvedBy resolvers copy shared).schema = scope.schema := rfl

@[simp]
theorem document_resolvedBy : (scope.resolvedBy resolvers copy shared).document = scope.document := rfl

@[simp]
theorem subscribing_resolvedBy : (scope.resolvedBy resolvers copy shared).subscribing = scope.subscribing := rfl

@[simp]
theorem applies_resolvedBy : (scope.resolvedBy resolvers copy shared).applies = scope.applies := rfl

@[simp]
theorem kindOf_resolvedBy : (scope.resolvedBy resolvers copy shared).kindOf = scope.kindOf := rfl

@[simp]
theorem items?_resolvedBy : (scope.resolvedBy resolvers copy shared).items? = scope.items? := rfl

@[simp]
theorem concreteType_resolvedBy : (scope.resolvedBy resolvers copy shared).concreteType = scope.concreteType := rfl

@[simp]
theorem completeLeaf_resolvedBy : (scope.resolvedBy resolvers copy shared).completeLeaf = scope.completeLeaf := rfl

@[simp]
theorem introspection?_resolvedBy :
    (scope.resolvedBy resolvers copy shared).introspection? = scope.introspection? := rfl

@[simp]
theorem omission?_resolvedBy (uses : List DirectiveUse) :
    (scope.resolvedBy resolvers copy shared).omission? uses = scope.omission? uses := by
  induction uses with
  | nil => rfl
  | cons use rest ih =>
    unfold omission?
    rw [ih]
    rfl

@[simp]
theorem arguments_resolvedBy (decl : FieldDef) (order : List (String × Option Value)) :
    (scope.resolvedBy resolvers copy shared).arguments decl order = scope.arguments decl order := by
  induction order with
  | nil => rfl
  | cons arg rest ih =>
    unfold arguments
    rw [ih]
    rfl

end ResolvedBy

end Scope

/-! ### Fields that are met -/

/-- The object at the end of a path in the outline of a value. -/
def Outline.objectAt? : List PathSegment → Outline ω ε → Option (TypeDecl × Data ω ε)
  | [], .object target data => some (target, data)
  | .index index :: rest, .list items => items[index]?.bind (objectAt? rest)
  | _, _ => none

namespace Scope

/-- While fields are executed on data of a type at a depth, the field `head` is met on an object: the path to the
object, its type and its data are those given. -/
inductive Meets (scope : Scope ω ε α) (runtime : Runtime ε α) :
    TypeDecl → Data ω ε → Nat → List CollectedField → List PathSegment → TypeDecl → Data ω ε → FieldHead → Prop
  | here {type : TypeDecl} {data : Data ω ε} {depth : Nat} {fields : List CollectedField} {field : CollectedField}
      (hfield : field ∈ fields) : Meets scope runtime type data depth fields [] type data field.head
  | inside {type : TypeDecl} {data : Data ω ε} {depth : Nat} {fields : List CollectedField} {field : CollectedField}
      {outline : Outline ω ε} {path inner : List PathSegment} {target parent : TypeDecl} {value innermost : Data ω ε}
      {head : FieldHead} (hfield : field ∈ fields)
      (houtline : scope.fieldOutline runtime type data (depth + 1) field.head = some outline)
      (hobject : outline.objectAt? path = some (target, value))
      (hbelow : Meets scope runtime target value depth (scope.collected target field.left field.children) inner parent
        innermost head) :
      Meets scope runtime type data (depth + 1) fields (.key field.key :: path ++ inner) parent innermost head

/-- The resolvers give the same for a field of an object with the arguments that the request gives to it. -/
def AgreesAt (scope : Scope ω ε α) (resolvers : Resolvers ω ε α) (parent : TypeDecl) (data : Data ω ε)
    (head : FieldHead) : Prop :=
  ∀ decl args, parent.field? head.name = some decl →
    scope.arguments decl (ArgumentPlan.of decl head.args).order = .ok args →
      scope.service.host.Agrees resolvers data head args

/-- The resolvers give the same for all fields that are met while the given fields are executed, save for fields at
the place or below it. -/
def AgreesBeside (scope : Scope ω ε α) (resolvers : Resolvers ω ε α) (runtime : Runtime ε α) (way : Way)
    (type : TypeDecl) (data : Data ω ε) (depth : Nat) (fields : List CollectedField) : Prop :=
  ∀ path parent value head, scope.Meets runtime type data depth fields path parent value head →
    way.walk (path ++ [.key head.key]) ≠ some [] → scope.AgreesAt resolvers parent value head

variable {scope : Scope ω ε α} {resolvers : Resolvers ω ε α} {runtime : Runtime ε α} {way : Way} {type : TypeDecl}
  {data : Data ω ε} {depth : Nat}

theorem Meets.mono {fields more : List CollectedField} {path : List PathSegment} {parent : TypeDecl}
    {value : Data ω ε} {head : FieldHead} (h : scope.Meets runtime type data depth fields path parent value head)
    (hmore : fields ⊆ more) : scope.Meets runtime type data depth more path parent value head := by
  cases h with
  | here hfield => exact .here (hmore hfield)
  | inside hfield houtline hobject hbelow => exact .inside (hmore hfield) houtline hobject hbelow

theorem AgreesBeside.mono {fields more : List CollectedField}
    (h : scope.AgreesBeside resolvers runtime way type data depth more) (hmore : fields ⊆ more) :
    scope.AgreesBeside resolvers runtime way type data depth fields :=
  fun path parent value head hmeets => h path parent value head (hmeets.mono hmore)

theorem AgreesBeside.here {fields : List CollectedField}
    (h : scope.AgreesBeside resolvers runtime way type data depth fields) (field : CollectedField)
    (hfield : field ∈ fields) (hway : way.step (.key field.key) ≠ some []) :
    scope.AgreesAt resolvers type data field.head := h [] type data field.head (.here hfield) hway

/-- What resolvers agree on stays so for the objects in the value of a field. -/
theorem AgreesBeside.below {fields : List CollectedField}
    (h : scope.AgreesBeside resolvers runtime way type data (depth + 1) fields) (field : CollectedField)
    (hfield : field ∈ fields) {outline : Outline ω ε}
    (houtline : scope.fieldOutline runtime type data (depth + 1) field.head = some outline) {path : List PathSegment}
    {target : TypeDecl} {value : Data ω ε} (hobject : outline.objectAt? path = some (target, value)) :
    scope.AgreesBeside resolvers runtime ((way.step (.key field.key)).walk path) target value depth
      (scope.collected target field.left field.children) := by
  intro inner parent innermost head hmeets hway
  refine h _ parent innermost head (.inside hfield houtline hobject hmeets) ?_
  rwa [List.append_assoc, List.cons_append, Way.walk_cons, Way.walk_append]

end Scope

/-! ### Outcomes that agree beside a place -/

namespace Outcome

/-- The entries and the errors are the same beside the place. -/
structure EntriesBeside (way : Way) (outcome other : Outcome (List (String × Value))) : Prop where
  result : Value.hideEntries way outcome.1 = Value.hideEntries way other.1
  errors : Errors.beside way outcome.2 = Errors.beside way other.2

/-- The values and the errors are the same beside the place. Where there is no value they are the same altogether,
unless the place is reached. -/
structure Beside (way : Way) (outcome other : Outcome Value) : Prop where
  result : outcome.1.hideAt way = other.1.hideAt way
  errors : Errors.beside way outcome.2 = Errors.beside way other.2
  null : way ≠ some [] → outcome.1.isNull = true → outcome = other

variable {way : Way}

theorem Beside.refl (outcome : Outcome Value) : Beside way outcome outcome := ⟨rfl, rfl, fun _ _ => rfl⟩

/-- At the place nothing is compared. -/
theorem Beside.here (outcome other : Outcome Value) : Beside (some []) outcome other where
  result := by rw [Value.hideAt_here, Value.hideAt_here]
  errors := by rw [Errors.beside_here, Errors.beside_here]
  null := fun h => absurd rfl h

/-- Errors that are the same beside the place can be put in front. -/
theorem EntriesBeside.behind {outcome other : Outcome (List (String × Value))} (h : EntriesBeside way outcome other)
    {errors errors' : List Error} (herrors : Errors.beside way errors = Errors.beside way errors') :
    EntriesBeside way (outcome.1, errors ++ outcome.2) (other.1, errors' ++ other.2) := by
  refine ⟨h.result, ?_⟩
  rw [Errors.beside_append, Errors.beside_append, herrors, h.errors]

end Outcome

/-- What each of two executions keeps by itself they keep together. -/
theorem Together.apart {β β' : Type} {m : Execution ε α β} {m' : Execution ε α β'} {first second : Run ε α → Prop}
    {post : β → Prop} {post' : β' → Prop} (hm : Ensures first m post) (hm' : Ensures second m' post') :
    Together (fun run run' => first run ∧ second run') m m' fun b b' => post b ∧ post' b' := by
  rintro run run' ⟨hfirst, hsecond⟩
  obtain ⟨hpost, hfirst⟩ := hm run hfirst
  obtain ⟨hpost', hsecond⟩ := hm' run' hsecond
  exact ⟨⟨hpost, hpost'⟩, hfirst, hsecond⟩

/-! ### Completing data -/

namespace Scope

section Complete

variable {scope : Scope ω ε α} {resolvers : Resolvers ω ε α} {copy shared depth : Nat}
  {inv : Run ε α → Run ε α → Prop} {way : Way} {shape shape' : Shape ω ε α}

/-- The objects of an outline are shaped alike beside the place. -/
def ShapesBeside (scope : Scope ω ε α) (inv : Run ε α → Run ε α → Prop) (way : Way) (outline : Outline ω ε)
    (shape shape' : Shape ω ε α) (depth : Nat) : Prop :=
  ∀ path target data, outline.objectAt? path = some (target, data) → scope.schema.type? target.name = some target →
    Together inv (shape target data depth) (shape' target data depth) (Outcome.EntriesBeside (way.walk path))

private theorem completeNamed_beside (name : String) (data : Data ω ε)
    (hshape : scope.ShapesBeside inv way (scope.outlineNamed name data) shape shape' (depth - 1)) :
    Together inv (scope.completeNamed shape depth name data)
      ((scope.resolvedBy resolvers copy shared).completeNamed shape' depth name data) (Outcome.Beside way) := by
  have hobject (target : TypeDecl) (htarget : scope.schema.type? target.name = some target)
      (houtline : scope.outlineNamed name data = .object target data) :
      Together inv (shape target data (depth - 1) >>= fun result => pure (Value.object result.1, result.2))
        (shape' target data (depth - 1) >>= fun result => pure (Value.object result.1, result.2))
        (Outcome.Beside way) := by
    refine (hshape [] target data (by rw [houtline]; rfl) htarget).bind fun result result' hresult => .pure ?_
    by_cases hway : way = some []
    · rw [hway]
      exact .here _ _
    · obtain ⟨hentries, herrors⟩ := hresult
      refine ⟨?_, herrors, fun _ hnull => absurd hnull Bool.false_ne_true⟩
      rw [Value.hideAt_object hway, Value.hideAt_object hway]
      exact congrArg Value.object hentries
  unfold completeNamed
  unfold outlineNamed at hobject
  simp only [schema_resolvedBy, concreteType_resolvedBy, completeLeaf_resolvedBy]
  split
  · exact .pure (.refl _)
  · next hnull =>
    rw [if_neg hnull] at hobject
    cases hdecl : scope.schema.type? name with
    | none => exact .pure (.refl _)
    | some decl =>
      rw [hdecl] at hobject
      dsimp only at hobject ⊢
      cases hbody : decl.body with
      | object body =>
        rw [hbody] at hobject
        exact hobject decl (Schema.type?_self hdecl) rfl
      | interface _ | union _ =>
        rw [hbody] at hobject
        dsimp only at hobject ⊢
        cases hconcrete : scope.concreteType decl.name data with
        | error fault => exact .pure (.refl _)
        | ok concrete =>
          rw [hconcrete] at hobject
          have habstract : decl.isAbstract = true := by simp [TypeDecl.isAbstract, hbody]
          exact hobject concrete (concreteType_mayBe habstract hconcrete).2.1 rfl
      | scalar _ | enum _ => exact .pure (.refl _)
      | input _ | schema _ => exact .pure (.refl _)

private theorem completeItems_beside {complete complete' : Data ω ε → Execution ε α (Outcome Value)}
    (items : List (Except Error (Data ω ε))) :
    ∀ first : Nat, (∀ (i : Nat) data, items[i]? = some (.ok data) →
        Together inv (complete data) (complete' data) (Outcome.Beside (way.step (.index (first + i))))) →
      Together inv (completeItems complete first items) (completeItems complete' first items) fun result result' =>
        Value.hideItems way first result.1 = Value.hideItems way first result'.1 ∧
          Errors.beside way result.2 = Errors.beside way result'.2 := by
  induction items with
  | nil => exact fun _ _ => .pure ⟨rfl, rfl⟩
  | cons item rest ih =>
    intro first hcomplete
    have hitem : Together inv (completeItem complete item) (completeItem complete' item)
        (Outcome.Beside (way.step (.index first))) := by
      cases item with
      | ok data => exact hcomplete 0 data rfl
      | error e => exact .pure (.refl _)
    have hrest (i : Nat) (data : Data ω ε) (hdata : rest[i]? = some (.ok data)) :
        Together inv (complete data) (complete' data) (Outcome.Beside (way.step (.index (first + 1 + i)))) := by
      rw [show first + 1 + i = first + (i + 1) by omega]
      exact hcomplete (i + 1) data hdata
    refine hitem.bind fun result result' hresult => (ih (first + 1) hrest).bind fun results results' hresults => ?_
    refine .pure ⟨?_, ?_⟩
    · rw [Value.hideItems_cons, Value.hideItems_cons, hresult.result, hresults.1]
    · rw [Errors.beside_append, Errors.beside_append, Errors.beside_prefixed _ hresult.errors, hresults.2]

private theorem completeWithin_beside (type : TypeRef) :
    ∀ (way : Way) (data : Data ω ε),
      scope.ShapesBeside inv way (scope.outlineWithin type data) shape shape' (depth - 1) →
        Together inv (scope.completeWithin shape depth type data)
          ((scope.resolvedBy resolvers copy shared).completeWithin shape' depth type data) (Outcome.Beside way) := by
  induction type with
  | named name => exact fun way data hshape => completeNamed_beside name data hshape
  | unresolved name pos => exact fun way data hshape => completeNamed_beside name data hshape
  | list item ih =>
    intro way data hshape
    unfold outlineWithin at hshape
    unfold completeWithin
    rw [items?_resolvedBy]
    cases hitems : scope.items? (TypeRef.list item).text data with
    | error fault => exact .pure (.refl _)
    | ok items =>
      cases items with
      | none => exact .pure (.refl _)
      | some items =>
        rw [hitems] at hshape
        have hcomplete (i : Nat) (data : Data ω ε) (hdata : items[i]? = some (.ok data)) :
            Together inv (scope.completeWithin shape depth item data)
              ((scope.resolvedBy resolvers copy shared).completeWithin shape' depth item data)
              (Outcome.Beside (way.step (.index (0 + i)))) := by
          refine ih _ data fun path target inner hobject htarget => ?_
          have hat : Outline.objectAt? (.index i :: path)
              (.list (items.map (outlineItem (scope.outlineWithin item)))) = some (target, inner) := by
            rw [Outline.objectAt?, List.getElem?_map, hdata]
            exact hobject
          have htogether := hshape (.index i :: path) target inner hat htarget
          rwa [Way.walk_cons, ← Nat.zero_add i] at htogether
        refine (completeItems_beside items 0 hcomplete).bind fun result result' hresult => .pure ⟨?_, hresult.2, ?_⟩
        · by_cases hway : way = some []
          · rw [hway, Value.hideAt_here, Value.hideAt_here]
          · rw [Value.hideAt_list hway, Value.hideAt_list hway, hresult.1]
        · exact fun _ hnull => absurd hnull Bool.false_ne_true
  | nonNull inner ih =>
    intro way data hshape
    unfold completeWithin
    refine (ih way data hshape).bind fun result result' hresult => ?_
    by_cases hway : way = some []
    · rw [hway]
      dsimp only
      split <;> split <;> exact .pure (Outcome.Beside.here _ _)
    · dsimp only
      cases hnull : result.1.isNull with
      | true =>
        -- there is no value and no error on both sides, or the same error
        rw [← hresult.null hway hnull, hnull]
        split <;> exact .pure (.refl _)
      | false =>
        have hnull' : result'.1.isNull = false := by
          rw [← Value.isNull_hideAt hway, ← hresult.result, Value.isNull_hideAt hway, hnull]
        rw [hnull']
        exact .pure ⟨hresult.result, hresult.errors, fun _ h => absurd (hnull.symm.trans h) Bool.false_ne_true⟩

/-- Data is completed to the same value beside the place if the objects in it are shaped alike. -/
theorem complete_beside (type : TypeRef) (data : Data ω ε)
    (hshape : depth ≠ 0 → scope.ShapesBeside inv way (scope.outline depth type data) shape shape' (depth - 1)) :
    Together inv (scope.complete shape depth type data)
      ((scope.resolvedBy resolvers copy shared).complete shape' depth type data) (Outcome.Beside way) := by
  unfold complete
  unfold outline at hshape
  split
  · exact .pure (.refl _)
  · next hdepth =>
    rw [if_neg hdepth] at hshape
    exact completeWithin_beside type way data (hshape hdepth)

end Complete

end Scope

end GraphQL
