import GraphQL.Proofs.Execution.Ensures
import GraphQL.Proofs.Response.Conformance

/-!
# The outline of completed data

Whatever is selected below a field, data is completed to the same value save for the entries of the objects in it.
`Scope.outline` is what stays the same: it tells which objects there will be, of which types, and what data they are
made of. `Scope.complete` fills it (`Scope.complete_fills`).
-/

namespace GraphQL

/-- The type is a list, possibly marked non-null. -/
def TypeRef.isListed : TypeRef → Bool
  | .list _ => true
  | .nonNull inner => inner.isListed
  | .named _ | .unresolved _ _ => false

/-- A value in which objects have no entries yet. -/
inductive Outline (ω ε : Type) where
  /-- A value that nothing is selected on. -/
  | value (v : Value)
  /-- An object of a type, with the data that it is made of. -/
  | object (target : TypeDecl) (data : Data ω ε)
  | list (items : List (Outline ω ε))

namespace Outline

variable {ω ε : Type}

mutual

/-- The value with entries put into its objects. -/
def fill (entries : TypeDecl → Data ω ε → List (String × Value)) : Outline ω ε → Value
  | value v => v
  | object target data => .object (entries target data)
  | list items => .list (fillItems entries items)

/-- `fill` on each item. -/
def fillItems (entries : TypeDecl → Data ω ε → List (String × Value)) : List (Outline ω ε) → List Value
  | [] => []
  | item :: rest => fill entries item :: fillItems entries rest

end

/-- The outline is of a list, or else of an object; none if it is a value already. -/
def listed? : Outline ω ε → Option Bool
  | value _ => none
  | object _ _ => some false
  | list _ => some true

/-- `value` and `object` hold of the values and of the objects in the outline. -/
inductive All (value : Value → Prop) (object : TypeDecl → Data ω ε → Prop) : Outline ω ε → Prop
  | value {v : Value} (h : value v) : All value object (.value v)
  | object {target : TypeDecl} {data : Data ω ε} (h : object target data) : All value object (.object target data)
  | list {items : List (Outline ω ε)} (h : ∀ item ∈ items, All value object item) : All value object (.list items)

theorem All.mono {value : Value → Prop} {object object' : TypeDecl → Data ω ε → Prop} {outline : Outline ω ε}
    (h : outline.All value object) (hobject : ∀ target data, object target data → object' target data) :
    outline.All value object' := by
  induction h with
  | value h => exact .value h
  | object h => exact .object (hobject _ _ h)
  | list _ ih => exact .list ih

theorem All.fill_congr {value : Value → Prop} {object : TypeDecl → Data ω ε → Prop} {outline : Outline ω ε}
    (h : outline.All value object) {entries entries' : TypeDecl → Data ω ε → List (String × Value)}
    (hentries : ∀ target data, object target data → entries target data = entries' target data) :
    outline.fill entries = outline.fill entries' := by
  induction h with
  | value _ => rfl
  | object h => exact congrArg Value.object (hentries _ _ h)
  | @list items h ih =>
    refine congrArg Value.list ?_
    induction items with
    | nil => rfl
    | cons item rest ihrest =>
      rw [fillItems, fillItems, ih item List.mem_cons_self]
      rw [ihrest (fun item hitem => h item (List.mem_cons_of_mem _ hitem))
        fun item hitem => ih item (List.mem_cons_of_mem _ hitem)]

end Outline

namespace Scope

variable {ω ε α : Type}

/-- The outline of data of a named type. -/
def outlineNamed (scope : Scope ω ε α) (name : String) (data : Data ω ε) : Outline ω ε :=
  if data.isNull then .value .null
  else
    match scope.schema.type? name with
    | none => .value .null
    | some decl =>
      match decl.body with
      | .object _ => .object decl data
      | .interface _ | .union _ =>
        match scope.concreteType decl.name data with
        | .error _ => .value .null
        | .ok concrete => .object concrete data
      | .scalar _ | .enum _ => .value (scope.completeLeaf name data).1
      | .input _ | .schema _ => .value .null

/-- The outline of an item of a list. -/
def outlineItem (outline : Data ω ε → Outline ω ε) : Except Error (Data ω ε) → Outline ω ε
  | .ok data => outline data
  | .error _ => .value .null

/-- The outline of data while there is depth left. -/
def outlineWithin (scope : Scope ω ε α) : TypeRef → Data ω ε → Outline ω ε
  | .nonNull inner, data => scope.outlineWithin inner data
  | .list item, data =>
    match scope.items? (TypeRef.list item).text data with
    | .error _ => .value .null
    | .ok none => .value .null
    | .ok (some items) => .list (items.map (outlineItem (scope.outlineWithin item)))
  | .named name, data => scope.outlineNamed name data
  | .unresolved name _, data => scope.outlineNamed name data

/-- The outline of data of the given type. -/
def outline (scope : Scope ω ε α) (depth : Nat) (type : TypeRef) (data : Data ω ε) : Outline ω ε :=
  if depth = 0 then .value data.raw else scope.outlineWithin type data

/-- Lists are of list types, and objects are of other types. -/
theorem outline_listed? {scope : Scope ω ε α} {depth : Nat} {type : TypeRef} {data : Data ω ε} {listed : Bool}
    (h : (scope.outline depth type data).listed? = some listed) : type.isListed = listed := by
  have hnamed : ∀ name, (scope.outlineNamed name data).listed? = some listed → false = listed := by
    intro name hname
    unfold outlineNamed at hname
    split at hname
    · cases hname
    · split at hname
      · cases hname
      · split at hname
        · exact Option.some.inj hname
        · split at hname
          · cases hname
          · exact Option.some.inj hname
        · split at hname
          · cases hname
          · exact Option.some.inj hname
        · cases hname
        · cases hname
        · cases hname
        · cases hname
  unfold outline at h
  split at h
  · cases h
  · induction type with
    | named name => exact hnamed name h
    | unresolved name pos => exact hnamed name h
    | nonNull inner ih => exact ih h
    | list item _ =>
      unfold outlineWithin at h
      split at h
      · cases h
      · cases h
      · exact Option.some.inj h

/-- The function that shapes objects keeps the invariant and, if `known` holds, gives the entries given by `entries`. It
is for objects of types of the schema. -/
def Shapes (scope : Scope ω ε α) (inv : Run ε α → Prop) (known : Prop) (shape : Shape ω ε α) (depth : Nat)
    (entries : TypeDecl → Data ω ε → List (String × Value)) : Prop :=
  ∀ target data, scope.schema.type? target.name = some target →
    Ensures inv (shape target data depth) fun result => known → result.1 = entries target data

variable {scope : Scope ω ε α} {inv : Run ε α → Prop} {known : Prop} {shape : Shape ω ε α} {depth : Nat}
  {entries : TypeDecl → Data ω ε → List (String × Value)}

private theorem completeNamed_fills (hshape : scope.Shapes inv known shape (depth - 1) entries) (name : String)
    (data : Data ω ε) :
    Ensures inv (scope.completeNamed shape depth name data) fun result =>
      known → result.1 = (scope.outlineNamed name data).fill entries := by
  have hobject (target : TypeDecl) (htarget : scope.schema.type? target.name = some target) :
      Ensures inv (shape target data (depth - 1) >>= fun result => pure (Value.object result.1, result.2)) fun result =>
        known → result.1 = (Outline.object target data).fill entries :=
    (hshape target data htarget).bind fun result hresult => .pure fun hknown => congrArg Value.object (hresult hknown)
  unfold completeNamed outlineNamed
  split
  · exact .pure fun _ => rfl
  · cases hdecl : scope.schema.type? name with
    | none => exact .pure fun _ => rfl
    | some decl =>
      dsimp only
      cases hbody : decl.body with
      | object body => exact hobject decl (Schema.type?_self hdecl)
      | interface _ | union _ =>
        dsimp only
        cases hconcrete : scope.concreteType decl.name data with
        | error fault => exact .pure fun _ => rfl
        | ok concrete =>
          have habstract : decl.isAbstract = true := by simp [TypeDecl.isAbstract, hbody]
          exact hobject concrete (concreteType_mayBe habstract hconcrete).2.1
      | scalar _ | enum _ => exact .pure fun _ => rfl
      | input _ | schema _ => exact .pure fun _ => rfl

private theorem completeItems_fills {complete : Data ω ε → Execution ε α (Outcome Value)}
    {outline : Data ω ε → Outline ω ε}
    (hcomplete : ∀ data, Ensures inv (complete data) fun result => known → result.1 = (outline data).fill entries)
    (items : List (Except Error (Data ω ε))) :
    ∀ first : Nat, Ensures inv (completeItems complete first items) fun result =>
      known → result.1 = Outline.fillItems entries (items.map (outlineItem outline)) := by
  induction items with
  | nil => exact fun _ => .pure fun _ => rfl
  | cons item rest ih =>
    intro first
    have hitem : Ensures inv (completeItem complete item) fun result =>
        known → result.1 = (outlineItem outline item).fill entries := by
      cases item with
      | ok data => exact hcomplete data
      | error e => exact .pure fun _ => rfl
    refine hitem.bind fun result hresult => (ih (first + 1)).bind fun results hresults => .pure fun hknown => ?_
    rw [List.map_cons, Outline.fillItems, ← hresult hknown, ← hresults hknown]

/-- Completing data fills its outline with the entries that the objects are shaped to. -/
theorem complete_fills (hshape : depth ≠ 0 → scope.Shapes inv known shape (depth - 1) entries) (type : TypeRef)
    (data : Data ω ε) :
    Ensures inv (scope.complete shape depth type data) fun result =>
      known → result.1 = (scope.outline depth type data).fill entries := by
  unfold complete outline
  split
  · exact .pure fun _ => rfl
  · next hdepth =>
    have hshape := hshape hdepth
    induction type generalizing data with
    | named name => exact completeNamed_fills hshape name data
    | unresolved name pos => exact completeNamed_fills hshape name data
    | list item ih =>
      unfold completeWithin outlineWithin
      cases scope.items? (TypeRef.list item).text data with
      | error fault => exact .pure fun _ => rfl
      | ok items =>
        cases items with
        | none => exact .pure fun _ => rfl
        | some items =>
          refine (completeItems_fills ih items 0).bind fun result hresult => .pure fun hknown => ?_
          exact congrArg Value.list (hresult hknown)
    | nonNull inner ih =>
      unfold completeWithin outlineWithin
      refine (ih data).bind fun result hresult => ?_
      dsimp only
      split
      · exact .pure hresult
      · exact .pure hresult

end Scope

end GraphQL
