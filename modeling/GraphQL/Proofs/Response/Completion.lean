import GraphQL.Proofs.Execution.Ensures
import GraphQL.Proofs.Response.Conformance

/-!
# Completed data conforms to its type

Whatever data a resolver gives, completing it gives a value that conforms to the declared type of the field, if the
objects inside are shaped as their selection sets ask for.
-/

namespace GraphQL

/-! ### Reported places -/

theorem Labelled.refl (place : List PathSegment) : Labelled place place := by
  induction place with
  | nil => exact .nil
  | cons segment place ih => exact .cons segment ih

namespace Host

variable {ω ε α : Type} {host : Host ω ε α} {errors more : List Error} {place : List PathSegment}

theorem Reports.prefixed (h : host.Reports errors place) (segment : PathSegment) :
    host.Reports (errors.map (.prefixed segment)) (segment :: place) := by
  obtain ⟨e, he, own, hown, hpath⟩ := h
  exact ⟨e.prefixed segment, List.mem_map_of_mem he, own, hown, .cons segment hpath⟩

theorem Reports.labelled (h : host.Reports errors place) (pos : Pos) :
    host.Reports (errors.map (.prefixed (Scope.spreadLabel pos))) place := by
  obtain ⟨e, he, own, hown, hpath⟩ := h
  exact ⟨e.prefixed (Scope.spreadLabel pos), List.mem_map_of_mem he, own, hown, .label pos hpath⟩

theorem Reports.of_subset (h : host.Reports errors place) (hsub : errors ⊆ more) : host.Reports more place := by
  obtain ⟨e, he, hpath⟩ := h
  exact ⟨e, hsub he, hpath⟩

theorem Reports.append_left (h : host.Reports errors place) : host.Reports (errors ++ more) place :=
  h.of_subset (List.subset_append_left _ _)

theorem Reports.append_right (h : host.Reports errors place) : host.Reports (more ++ errors) place :=
  h.of_subset (List.subset_append_right _ _)

/-- An error reports the place where it arises. -/
theorem reports_of_mem {e : Error} (he : e ∈ errors) (hown : host.OwnPath e.path) : host.Reports errors [] :=
  ⟨e, he, e.path, hown, Labelled.refl _⟩

end Host

namespace Scope

variable {ω ε α : Type} {scope : Scope ω ε α} {inv : Run ε α → Prop} {left : List Fragment}
  {children : List Selection}

/-! ### The relation -/

theorem Conforms.mono {reported : List PathSegment → Prop} {expected : Expected} {v : Value}
    (h : scope.Conforms reported expected left children v) :
    ∀ {reported' : List PathSegment → Prop}, (∀ place, reported place → reported' place) →
      scope.Conforms reported' expected left children v := by
  induction h with
  | null h => exact fun _ => .null h
  | nonNull _ hnull ih => exact fun hsub => .nonNull (ih hsub) fun hv => hsub _ (hnull hv)
  | list _ ih => exact fun hsub => .list fun index v hv => ih index v hv fun place => hsub _
  | composite hname hdecl htarget _ ih => exact fun hsub => .composite hname hdecl htarget (ih hsub)
  | scalar hname hdecl hkind h => exact fun _ => .scalar hname hdecl hkind h
  | enum hname hdecl hvalues h => exact fun _ => .enum hname hdecl hvalues h
  | object hkeys htypename _ ih =>
    exact fun hsub => .object hkeys htypename fun field hfield type v htype hv =>
      ih field hfield type v htype hv fun place => hsub _

/-- Where `null` is reported it conforms to every type. -/
theorem conforms_null {reported : List PathSegment → Prop} (h : reported []) (type : TypeRef) :
    scope.Conforms reported (.value type) left children .null := by
  induction type with
  | named name => exact .null rfl
  | unresolved name pos => exact .null rfl
  | list item _ => exact .null rfl
  | nonNull inner ih => exact .nonNull ih fun _ => h

/-! ### Leaves -/

private theorem coerceOutNamed_conforms {type : TypeRef} {name : String} {v w : Value}
    {reported : List PathSegment → Prop} (hname : type.ownName? = some name) {decl : TypeDecl}
    (hdecl : scope.schema.type? name = some decl) (hleaf : decl.isLeaf = true)
    (h : scope.coercion.coerceOutNamed name v = .ok w) :
    scope.Conforms reported (.value type) left children w := by
  have hnull : type.isNonNull = false := by cases type <;> simp_all [TypeRef.ownName?, TypeRef.isNonNull]
  have hschema : scope.coercion.schema.type? name = some decl := hdecl
  unfold Coercion.coerceOutNamed at h
  split at h
  · cases h
    exact .null hnull
  · rw [hschema] at h
    cases hbody : decl.body with
    | scalar kind =>
      simp only [hbody] at h
      exact .scalar hname hdecl hbody h
    | enum values =>
      simp only [hbody] at h
      split at h
      · split at h
        · cases h
          exact .enum hname hdecl hbody ‹_›
        · cases h
      · cases h
    | object _ | interface _ | union _ | input _ | schema _ => simp [TypeDecl.isLeaf, hbody] at hleaf

/-- What completing data of a type promises: the value conforms, and errors of a `null` are about the `null` itself. -/
def Completes (scope : Scope ω ε α) (type : TypeRef) (left : List Fragment) (children : List Selection)
    (result : Outcome Value) : Prop :=
  scope.Conforms (scope.service.host.Reports result.2) (.value type) left children result.1 ∧
    (result.1 = .null → ∀ e ∈ result.2, e.path = [])

private theorem completes_failed {type : TypeRef} (hnull : type.isNonNull = false) (fault : ExecutionFault) :
    scope.Completes type left children (failed .null fault) := by
  refine ⟨.null hnull, fun _ e he => ?_⟩
  rw [List.mem_singleton.1 he]
  rfl

private theorem completeLeaf_completes {type : TypeRef} {name : String} (hname : type.ownName? = some name)
    {decl : TypeDecl} (hdecl : scope.schema.type? name = some decl) (hleaf : decl.isLeaf = true) (data : Data ω ε) :
    scope.Completes type left children (scope.completeLeaf name data) := by
  have hnull : type.isNonNull = false := by cases type <;> simp_all [TypeRef.ownName?, TypeRef.isNonNull]
  unfold completeLeaf
  split
  · exact completes_failed hnull _
  · split
    · exact ⟨coerceOutNamed_conforms hname hdecl hleaf ‹_›, fun _ e he => absurd he (by simp)⟩
    · exact completes_failed hnull _

/-! ### Objects -/

variable {shape : Shape ω ε α} {depth : Nat}

/-- What is promised of the function that shapes objects. -/
def ShapesObjects (scope : Scope ω ε α) (inv : Run ε α → Prop) (left : List Fragment) (children : List Selection)
    (shape : Shape ω ε α) (depth : Nat) : Prop :=
  ∀ target data, Ensures inv (shape target data depth) fun result =>
    scope.Conforms (scope.service.host.Reports result.2) (.object target) left children (.object result.1)

private theorem shaped_completes (hshape : scope.ShapesObjects inv left children shape depth) {type : TypeRef}
    {name : String} (hname : type.ownName? = some name) {decl target : TypeDecl}
    (hdecl : scope.schema.type? name = some decl) (htarget : scope.schema.MayBe decl target) (data : Data ω ε) :
    Ensures inv (do
        let (entries, errors) ← shape target data depth
        return (Value.object entries, errors) : Execution ε α (Outcome Value))
      (scope.Completes type left children) := by
  refine (hshape target data).bind fun result hresult => .pure ?_
  exact ⟨.composite hname hdecl htarget hresult, fun h => by cases h⟩

private theorem completeNamed_completes (hshape : scope.ShapesObjects inv left children shape (depth - 1))
    {type : TypeRef} {name : String} (hname : type.ownName? = some name) (data : Data ω ε) :
    Ensures inv (scope.completeNamed shape depth name data) (scope.Completes type left children) := by
  have hnull : type.isNonNull = false := by cases type <;> simp_all [TypeRef.ownName?, TypeRef.isNonNull]
  unfold completeNamed
  split
  · exact .pure ⟨.null hnull, fun _ e he => absurd he (by simp)⟩
  · cases hdecl : scope.schema.type? name with
    | none => exact .pure (completes_failed hnull _)
    | some decl =>
      cases hbody : decl.body with
      | object body =>
        simp only [hbody]
        have hobject : decl.isObject = true := by simp [TypeDecl.isObject, hbody]
        exact shaped_completes hshape hname hdecl (Schema.mayBe_self hobject hdecl) data
      | interface _ | union _ =>
        simp only [hbody]
        split
        · exact .pure (completes_failed hnull _)
        · have habstract : decl.isAbstract = true := by simp [TypeDecl.isAbstract, hbody]
          exact shaped_completes hshape hname hdecl (concreteType_mayBe habstract ‹_›) data
      | scalar _ | enum _ =>
        simp only [hbody]
        exact .pure (completeLeaf_completes hname hdecl (by simp [TypeDecl.isLeaf, hbody]) data)
      | input _ | schema _ =>
        simp only [hbody]
        exact .pure (completes_failed hnull _)

/-! ### Lists -/

private theorem ownPath_of_items? {type : String} {data : Data ω ε} {items : List (Except Error (Data ω ε))}
    (h : scope.items? type data = .ok (some items)) {e : Error} (he : .error e ∈ items) :
    scope.service.host.OwnPath e.path := by
  unfold items? at h
  split at h
  · cases h
  · cases h
  · cases h
    simp at he
  · cases h
    simp at he
  · split at h
    · cases h
      exact .untypedItem ‹_› he
    · cases h
  · split at h
    · cases h
      exact .item ‹_› he
    · cases h
  · cases h
  · cases h

private theorem completeItems_conforms {complete : Data ω ε → Execution ε α (Outcome Value)} {item : TypeRef}
    (hcomplete : ∀ data, Ensures inv (complete data) (scope.Completes item left children))
    (items : List (Except Error (Data ω ε))) :
    ∀ (first : Nat), (∀ e, .error e ∈ items → scope.service.host.OwnPath e.path) →
      Ensures inv (completeItems complete first items) fun result =>
        ∀ index v, result.1[index]? = some v →
          scope.Conforms (fun place => scope.service.host.Reports result.2 (.index (first + index) :: place))
            (.value item) left children v := by
  induction items with
  | nil => exact fun first _ => .pure fun index v hv => by simp at hv
  | cons head rest ih =>
    intro first hown
    have hhead : Ensures inv (completeItem complete head) fun result =>
        scope.Conforms (scope.service.host.Reports result.2) (.value item) left children result.1 := by
      cases head with
      | ok data => exact (hcomplete data).mono fun _ h => h.1
      | error e =>
        exact .pure (conforms_null (Host.reports_of_mem List.mem_cons_self (hown e List.mem_cons_self)) _)
    unfold completeItems
    refine hhead.bind fun result hresult => ?_
    refine (ih (first + 1) fun e he => hown e (List.mem_cons_of_mem _ he)).bind fun results hresults => .pure ?_
    intro index v hv
    cases index with
    | zero =>
      cases hv
      exact hresult.mono fun place hplace => (hplace.prefixed (.index first)).append_left
    | succ index =>
      have hindex : first + (index + 1) = first + 1 + index := by omega
      rw [hindex]
      exact (hresults index v hv).mono fun place hplace => hplace.append_right

/-! ### All data -/

/-- Completed data conforms to its type. -/
theorem completeWithin_completes (hshape : scope.ShapesObjects inv left children shape (depth - 1))
    (type : TypeRef) :
    ∀ data, Ensures inv (scope.completeWithin shape depth type data) (scope.Completes type left children) := by
  induction type with
  | named name => exact fun data => completeNamed_completes hshape rfl data
  | unresolved name pos => exact fun data => completeNamed_completes hshape rfl data
  | list item ih =>
    intro data
    unfold completeWithin
    split
    · exact .pure (completes_failed rfl _)
    · exact .pure ⟨.null rfl, fun _ e he => absurd he (by simp)⟩
    · next items hitems =>
      refine (completeItems_conforms ih items 0 fun e he => ownPath_of_items? hitems he).bind fun result h => .pure ?_
      refine ⟨.list fun index v hv => ?_, fun hnull => by cases hnull⟩
      have hindex := h index v hv
      rw [Nat.zero_add] at hindex
      exact hindex
  | nonNull inner ih =>
    intro data
    unfold completeWithin
    refine (ih data).bind fun result hresult => ?_
    obtain ⟨v, errors⟩ := result
    obtain ⟨hconforms, hpaths⟩ := hresult
    dsimp only at hconforms hpaths ⊢
    split
    · next hfault =>
      rw [Bool.and_eq_true, Value.isNull_iff] at hfault
      obtain ⟨rfl, _⟩ := hfault
      have hreported : scope.service.host.Reports
          [Error.ofFault (.nullResult (TypeRef.nonNull inner).text)] [] :=
        Host.reports_of_mem List.mem_cons_self .none
      refine .pure ⟨conforms_null hreported _, fun _ e he => ?_⟩
      rw [List.mem_singleton.1 he]
      rfl
    · next hfault =>
      refine .pure ⟨.nonNull hconforms fun hv => ?_, hpaths⟩
      cases errors with
      | nil => exact absurd hfault (by simp [Value.isNull_iff, show v = .null from hv])
      | cons e errors =>
        have hpath := hpaths hv e List.mem_cons_self
        exact Host.reports_of_mem List.mem_cons_self (by rw [hpath]; exact .none)

end Scope

end GraphQL
