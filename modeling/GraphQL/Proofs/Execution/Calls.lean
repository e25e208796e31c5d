import GraphQL.Proofs.Execution.Selected
import GraphQL.Proofs.Request.Places
import GraphQL.Proofs.Response.Merging

/-!
# The calls of resolvers

While an operation is executed, every resolver is called for a field that its parent type declares, with the arguments
that the request gives to the field (`Scope.selections_tracks`). The plans of arguments are what could get in the way:
they are kept by place, so places must tell fields apart, and no resolver may change the plans of a copy of a request
that it does not know.
-/

namespace GraphQL

/-! ### Fields by their places -/

namespace Document

/-- The selection set of a definition. -/
def selections? (document : Document) : PlanOwner → Option (List Selection)
  | .operation name => (Members.get? name document.operations).map Operation.selections
  | .fragment name => (document.fragment? name).map Fragment.selections
  | .subscription _ => none

/-- The field at a place in a definition. -/
def head? (document : Document) (owner : PlanOwner) (pos : Pos) : Option FieldHead :=
  (document.selections? owner).bind fun selections => (Selection.headsOf selections).find? (·.pos == pos)

private theorem find?_place {heads : List FieldHead} (h : (heads.map FieldHead.pos).Nodup) {head : FieldHead}
    (hhead : head ∈ heads) : heads.find? (·.pos == head.pos) = some head := by
  induction heads with
  | nil => cases hhead
  | cons first rest ih =>
    rw [List.map_cons, List.nodup_cons] at h
    rcases List.mem_cons.1 hhead with rfl | hhead
    · simp
    · have hne : first.pos ≠ head.pos := fun heq => h.1 (heq ▸ List.mem_map_of_mem hhead)
      rw [List.find?_cons_of_neg (by simpa using hne)]
      exact ih h.2 hhead

theorem Placed.selections? {document : Document} (h : document.Placed) {owner : PlanOwner}
    {selections : List Selection} (hselections : document.selections? owner = some selections) :
    Selection.Placed selections := by
  cases owner with
  | operation name =>
    obtain ⟨operation, hoperation, rfl⟩ := Option.map_eq_some_iff.1 hselections
    exact h.operations operation (Members.mem_of_get? hoperation)
  | fragment name =>
    obtain ⟨fragment, hfragment, rfl⟩ := Option.map_eq_some_iff.1 hselections
    exact h.fragments fragment (Members.mem_of_get? hfragment)
  | subscription id => cases hselections

/-- The fields of a definition are found by their places. -/
theorem Placed.head? {document : Document} (h : document.Placed) {owner : PlanOwner} {selections : List Selection}
    (hselections : document.selections? owner = some selections) {head : FieldHead}
    (hhead : head ∈ Selection.headsOf selections) : document.head? owner head.pos = some head := by
  unfold Document.head?
  rw [hselections]
  exact find?_place (h.selections? hselections) hhead

/-- The fragments that are left are those of the document. -/
def Leaves (document : Document) (left : List Fragment) : Prop :=
  ∀ name fragment, Members.get? name left = some fragment → document.fragment? name = some fragment

theorem leaves_all (document : Document) : document.Leaves document.fragments := fun _ _ h => h

theorem Leaves.erase {document : Document} {left : List Fragment} (h : document.Leaves left) (name : String) :
    document.Leaves (Members.erase name left) :=
  fun other fragment hfragment => h other fragment (Members.get?_of_erase hfragment)

theorem Leaves.selections? {document : Document} {left : List Fragment} (h : document.Leaves left) {name : String}
    {fragment : Fragment} (hfragment : Members.get? name left = some fragment) :
    document.selections? (.fragment name) = some fragment.selections :=
  congrArg (Option.map Fragment.selections) (h name fragment hfragment)

end Document

/-! ### Resolvers and runtimes -/

namespace Runtime

variable {ε α : Type}

/-- Nobody but the execution of a copy knows the copy. -/
structure Conceals (runtime : Runtime ε α) (copy : Nat) : Prop where
  used : copy < runtime.next
  free : ∀ sub ∈ runtime.subscriptions, sub.copy ≠ copy

/-- The numbers of all copies were given out. -/
structure Numbered (runtime : Runtime ε α) : Prop where
  plans : ∀ entry ∈ runtime.plans, entry.1.copy < runtime.next
  subscriptions : ∀ sub ∈ runtime.subscriptions, sub.copy < runtime.next

/-- So it is in the runtime that a service starts with. -/
theorem numbered_start (app : α) : ({ app } : Runtime ε α).Numbered :=
  ⟨fun entry hentry => absurd hentry (by simp), fun sub hsub => absurd hsub (by simp)⟩

theorem Numbered.fresh {runtime : Runtime ε α} (h : runtime.Numbered) : runtime.fresh.2.Numbered where
  plans := fun entry hentry => Nat.lt_succ_of_lt (h.plans entry hentry)
  subscriptions := fun sub hsub => Nat.lt_succ_of_lt (h.subscriptions sub hsub)

theorem Numbered.addPlans {runtime : Runtime ε α} (h : runtime.Numbered) {plans : PlanBook}
    (hplans : ∀ entry ∈ plans, entry.1.copy < runtime.next) : (runtime.addPlans plans).Numbered where
  plans := fun entry hentry => (List.mem_append.1 hentry).elim (hplans entry) (h.plans entry)
  subscriptions := h.subscriptions

theorem Numbered.conceals {runtime : Runtime ε α} (h : runtime.Numbered) : runtime.fresh.2.Conceals runtime.next where
  used := Nat.lt_succ_self _
  free := fun sub hsub => Nat.ne_of_lt (h.subscriptions sub hsub)

theorem Conceals.fresh {runtime : Runtime ε α} {copy : Nat} (h : runtime.Conceals copy) :
    runtime.fresh.2.Conceals copy where
  used := Nat.lt_succ_of_lt h.used
  free := h.free

theorem Conceals.addPlans {runtime : Runtime ε α} {copy : Nat} (h : runtime.Conceals copy) (plans : PlanBook) :
    (runtime.addPlans plans).Conceals copy := ⟨h.used, h.free⟩

end Runtime

/-- Resolvers use only numbers that were given out, and make no plans for a copy of a request that they do not know, nor
subscriptions to it. -/
def Host.Discreet {ω ε α : Type} (host : Host ω ε α) : Prop :=
  ∀ o head args runtime, runtime.Numbered →
    let after := (host.resolve o head args runtime).2
    after.Numbered ∧ runtime.next ≤ after.next ∧
      ∀ copy, runtime.Conceals copy →
        after.Conceals copy ∧ ∀ entry ∈ after.plans, entry.1.copy = copy → entry ∈ runtime.plans

namespace Scope

variable {ω ε α : Type}

/-- The plan under the key is for the field at its place. -/
def PlanFor (scope : Scope ω ε α) (key : PlanKey) (plan : ArgumentPlan) : Prop :=
  ∃ parent head decl, scope.schema.type? key.parent = some parent ∧
    scope.document.head? key.owner key.pos = some head ∧ parent.field? head.name = some decl ∧
      plan = ArgumentPlan.of decl head.args

/-- The call is for a declared field, with the arguments that the request gives to it. -/
structure CallFor (scope : Scope ω ε α) (call : ResolverCall) : Prop where
  parent : scope.schema.type? call.parent.name = some call.parent
  decl : call.parent.field? call.head.name = some call.decl
  args : scope.arguments call.decl (ArgumentPlan.of call.decl call.head.args).order = .ok call.args

/-- What an execution keeps: its copy is concealed, and the plans for it and the calls are right. -/
structure Tracks (scope : Scope ω ε α) (run : Run ε α) : Prop where
  numbered : run.runtime.Numbered
  shared : scope.shared < run.runtime.next
  captured : ∀ sub ∈ run.captured, sub.copy = scope.shared
  conceals : run.runtime.Conceals scope.copy
  plans : ∀ entry ∈ run.runtime.plans, entry.1.copy = scope.copy → scope.PlanFor entry.1 entry.2
  calls : ∀ call ∈ run.calls, scope.CallFor call

/-- Resolvers keep what the execution keeps. -/
def Undisturbed (scope : Scope ω ε α) : Prop :=
  ∀ o head args run, scope.Tracks run →
    scope.Tracks { run with runtime := (scope.service.host.resolve o head args run.runtime).2 }

variable {scope : Scope ω ε α}

/-- Resolvers that make no plans for copies that they do not know do not disturb. -/
theorem undisturbed_of_discreet (hhost : scope.service.host.Discreet) : scope.Undisturbed := by
  intro o head args run hrun
  obtain ⟨hnumbered, hnext, hdiscreet⟩ := hhost o head args run.runtime hrun.numbered
  obtain ⟨hconceals, hplans⟩ := hdiscreet scope.copy hrun.conceals
  exact
    { numbered := hnumbered
      shared := Nat.lt_of_lt_of_le hrun.shared hnext
      captured := hrun.captured
      conceals := hconceals
      plans := fun entry hentry hcopy => hrun.plans entry (hplans entry hentry hcopy) hcopy
      calls := hrun.calls }

private theorem find_plan {book : PlanBook} {key : PlanKey} {plan : ArgumentPlan} (h : book.get? key = some plan) :
    (key, plan) ∈ book := by
  unfold PlanBook.get? at h
  obtain ⟨⟨key', plan'⟩, hfind, rfl⟩ := Option.map_eq_some_iff.1 h
  have hkey : key' = key := by simpa using List.find?_some hfind
  exact hkey ▸ List.mem_of_find?_eq_some hfind

/-! ### Steps -/

section Field

variable {parent : TypeDecl} {decl : FieldDef} {head : FieldHead} {owner : PlanOwner}

theorem plan_tracks (hparent : scope.schema.type? parent.name = some parent)
    (hhead : scope.document.head? owner head.pos = some head) (hdecl : parent.field? head.name = some decl) :
    Ensures scope.Tracks (scope.plan owner parent decl head) fun result =>
      result.1 = ArgumentPlan.of decl head.args := by
  unfold plan
  refine Ensures.get.bind fun run hrun => ?_
  split
  · next plan hplan =>
    refine .pure ?_
    -- a plan that is kept under the key is for the same field
    obtain ⟨parent', head', decl', hparent', hhead', hdecl', hplan'⟩ := hrun.plans _ (find_plan hplan) rfl
    cases hparent.symm.trans hparent'
    cases hhead.symm.trans hhead'
    cases hdecl.symm.trans hdecl'
    exact hplan'
  · refine (Ensures.set ⟨?_, hrun.shared, hrun.captured, hrun.conceals.addPlans _, ?_, hrun.calls⟩).bind
      fun _ _ => .pure rfl
    · exact hrun.numbered.addPlans (List.forall_mem_singleton.2 hrun.conceals.used)
    · intro entry hentry hcopy
      rcases List.mem_append.1 hentry with hentry | hentry
      · rw [List.mem_singleton.1 hentry]
        exact ⟨parent, head, decl, hparent, hhead, hdecl, rfl⟩
      · exact hrun.plans entry hentry hcopy

theorem fieldArguments_tracks (hparent : scope.schema.type? parent.name = some parent)
    (hhead : scope.document.head? owner head.pos = some head) (hdecl : parent.field? head.name = some decl) :
    Ensures scope.Tracks (scope.fieldArguments owner parent decl head) fun result =>
      result.1 = (scope.arguments decl (ArgumentPlan.of decl head.args).order).toOption := by
  unfold fieldArguments
  refine (plan_tracks hparent hhead hdecl).bind fun result hresult => ?_
  obtain ⟨plan, isNew⟩ := result
  obtain rfl : plan = ArgumentPlan.of decl head.args := hresult
  dsimp only
  cases scope.arguments decl (ArgumentPlan.of decl head.args).order with
  | ok args => exact .pure rfl
  | error fault => exact .pure rfl

theorem note_tracks {call : ResolverCall} (hcall : scope.CallFor call) :
    Ensures scope.Tracks (note call) fun _ => True := by
  refine .update fun run hrun => { hrun with calls := fun other hother => ?_ }
  rcases List.mem_cons.1 hother with rfl | hother
  · exact hcall
  · exact hrun.calls other hother

theorem dispatch_tracks (hhost : scope.Undisturbed) (runtime : Runtime ε α) (data : Data ω ε)
    {call : ResolverCall} (hcall : scope.CallFor call) :
    Ensures scope.Tracks (scope.dispatch data call) fun result =>
      scope.service.host.Deterministic → result.toOption = scope.resolved? runtime data call.head call.args := by
  unfold dispatch resolved?
  cases data with
  | object o =>
    refine (note_tracks hcall).bind fun _ _ => Ensures.get.bind fun run hrun => ?_
    refine (Ensures.set (hhost o call.head call.args run hrun)).bind fun _ _ => .pure fun hsame => ?_
    exact congrArg Except.toOption (hsame.object o call.head call.head call.args run.runtime runtime rfl rfl)
  | node n =>
    refine (note_tracks hcall).bind fun _ _ => .pure fun _ => ?_
    dsimp only
    cases n.resolve scope.schema call.head.name call.args <;> rfl
  | value v => exact (note_tracks hcall).bind fun _ _ => .pure fun _ => rfl
  | null => exact .pure fun _ => rfl
  | list _ | endpoint _ => exact .pure fun _ => rfl

theorem capture_tracks (hshared : scope.shared ≠ scope.copy) (children : List Selection) (type : TypeRef)
    (endpoint : ε) : Ensures scope.Tracks (scope.capture owner head children type endpoint) fun _ => True := by
  refine .update fun run hrun => ?_
  show scope.Tracks { run with runtime := (run.runtime.fresh.2.addPlans _), captured := _ }
  refine ⟨hrun.numbered.fresh.addPlans ?_, Nat.lt_succ_of_lt hrun.shared, ?_, hrun.conceals.fresh.addPlans _, ?_,
    hrun.calls⟩
  · intro entry hentry
    obtain ⟨original, -, rfl⟩ := List.mem_map.1 hentry
    exact Nat.lt_succ_of_lt hrun.shared
  · intro sub hsub
    rcases List.mem_append.1 hsub with hsub | hsub
    · exact hrun.captured sub hsub
    · rw [List.mem_singleton.1 hsub]
  · intro entry hentry hcopy
    rcases List.mem_append.1 hentry with hentry | hentry
    · obtain ⟨original, -, rfl⟩ := List.mem_map.1 hentry
      exact absurd hcopy hshared
    · exact hrun.plans entry hentry hcopy

end Field

/-! ### Selection sets -/

section Selections

variable {left : List Fragment} {owner : PlanOwner}

theorem declaredField_tracks (hhost : scope.Undisturbed) (hshared : scope.shared ≠ scope.copy)
    (runtime : Runtime ε α) {shape : Shape ω ε α} {depth : Nat}
    {entries : TypeDecl → Data ω ε → List (String × Value)}
    (hshape : depth ≠ 0 →
      scope.Shapes scope.Tracks scope.service.host.Deterministic shape (depth - 1) entries)
    {head : FieldHead} (hhead : scope.document.head? owner head.pos = some head) (children : List Selection)
    {parent : TypeDecl} (hparent : scope.schema.type? parent.name = some parent) {decl : FieldDef}
    (hdecl : parent.field? head.name = some decl) (data : Data ω ε) :
    Ensures scope.Tracks (scope.declaredField owner head children shape parent decl data depth) fun result =>
      scope.service.host.Deterministic →
        result.1 = (scope.declaredOutline runtime decl data depth head).fill entries := by
  unfold declaredField declaredOutline
  refine (fieldArguments_tracks hparent hhead hdecl).bind fun result hresult => ?_
  obtain ⟨args, errors⟩ := result
  dsimp only at hresult
  cases hargs : scope.arguments decl (ArgumentPlan.of decl head.args).order with
  | error fault =>
    rw [hargs] at hresult
    rw [hresult]
    exact .pure fun _ => rfl
  | ok args' =>
    rw [hargs] at hresult
    rw [hresult]
    refine (dispatch_tracks hhost runtime data ⟨hparent, hdecl, hargs⟩).bind fun resolved hresolved => ?_
    dsimp only at hresolved ⊢
    cases resolved with
    | error e =>
      refine .pure fun hsame => ?_
      rw [← hresolved hsame]
      rfl
    | ok resolved =>
      have hcomplete : Ensures scope.Tracks (scope.complete shape depth decl.type resolved >>= fun result =>
          pure (result.1, errors ++ result.2)) fun result => scope.service.host.Deterministic →
            result.1 = (scope.outline depth decl.type resolved).fill entries :=
        (complete_fills hshape decl.type resolved).bind fun _ hresult => .pure hresult
      cases resolved with
      | endpoint endpoint =>
        cases hsubscribing : scope.subscribing && depth == scope.service.maxDepth with
        | true =>
          refine (capture_tracks hshared children decl.type _).bind fun _ _ => .pure fun hsame => ?_
          rw [← hresolved hsame]
          rfl
        | false =>
          refine hcomplete.mono fun result hresult hsame => ?_
          rw [← hresolved hsame]
          exact hresult hsame
      | null | value _ | list _ | object _ | node _ =>
        refine hcomplete.mono fun result hresult hsame => ?_
        rw [← hresolved hsame]
        exact hresult hsame

private theorem field_tracks (hhost : scope.Undisturbed) (hshared : scope.shared ≠ scope.copy)
    (runtime : Runtime ε α) {shape : Shape ω ε α} {depth : Nat}
    {entries : TypeDecl → Data ω ε → List (String × Value)}
    (hshape : depth ≠ 0 →
      scope.Shapes scope.Tracks scope.service.host.Deterministic shape (depth - 1) entries)
    {head : FieldHead} (hhead : scope.document.head? owner head.pos = some head) (children : List Selection)
    {parent : TypeDecl} (hparent : scope.schema.type? parent.name = some parent) (data : Data ω ε) :
    Ensures scope.Tracks (scope.field owner head children shape parent data depth) fun result =>
      scope.service.host.Deterministic →
        result.1 = (scope.fieldOutline runtime parent data depth head).map (Outline.fill entries) := by
  unfold field fieldOutline
  split
  · exact .pure fun _ => rfl
  · cases scope.introspection? parent head with
    | some introspected =>
      cases introspected with
      | error fault => exact .pure fun _ => rfl
      | ok introspected =>
        refine (complete_fills hshape _ _).bind fun result hresult => .pure fun hsame => ?_
        exact congrArg some (hresult hsame)
    | none =>
      cases hdecl : parent.field? head.name with
      | none => exact .pure fun _ => rfl
      | some decl =>
        exact (declaredField_tracks hhost hshared runtime hshape hhead children hparent hdecl data).bind
          fun result hresult => .pure fun hsame => congrArg some (hresult hsame)

/-- Executing a selection set keeps track, and gives what `Scope.selected` says if resolvers are deterministic. The
recursion is that of `Selection.levels`: on the fragments that are left, and then on the selections. -/
theorem select_tracks (hhost : scope.Undisturbed) (hshared : scope.shared ≠ scope.copy)
    (hplaced : scope.document.Placed) (runtime : Runtime ε α) (left : List Fragment) (owner : PlanOwner)
    (selections : List Selection) (type : TypeDecl) (data : Data ω ε) (depth : Nat) (entries : List (String × Value))
    (hleft : scope.document.Leaves left)
    (hheads : ∀ head ∈ Selection.headsOf selections, scope.document.head? owner head.pos = some head)
    (htype : scope.schema.type? type.name = some type) :
    Ensures scope.Tracks (scope.select (scope.expand left) owner selections type data depth entries) fun result =>
      scope.service.host.Deterministic →
        result.1 = mergeEntries entries
          (scope.selected runtime type data depth (scope.collected type left selections)) := by
  match selections with
  | [] =>
    rw [select, collected]
    exact .pure fun _ => by simp
  | selection :: rest =>
    rw [Selection.headsOf] at hheads
    have hhere := fun head hhead => hheads head (List.mem_append_left _ hhead)
    have hrest (entries : List (String × Value)) :=
      select_tracks hhost hshared hplaced runtime left owner rest type data depth entries hleft
        (fun head hhead => hheads head (List.mem_append_right _ hhead)) htype
    have hone (hincluded : scope.omission? selection.directives = none) :
        Ensures scope.Tracks (scope.selectOne (scope.expand left) owner selection type data depth entries)
          fun result => scope.service.host.Deterministic →
            result.1 = mergeEntries entries
              (scope.selected runtime type data depth (scope.collectedOne type left selection)) := by
      cases hselection : selection with
      | field head children =>
        rw [hselection] at hincluded
        rw [hselection, Selection.heads] at hhere
        have hshape (hdepth : depth ≠ 0) : scope.Shapes scope.Tracks scope.service.host.Deterministic
            (fun type data depth => scope.select (scope.expand left) owner children type data depth []) (depth - 1)
            (scope.selectedBelow runtime depth { head, children, left }) := by
          intro target data htarget
          obtain ⟨below, rfl⟩ := Nat.exists_eq_succ_of_ne_zero hdepth
          exact select_tracks hhost hshared hplaced runtime left owner children target data below []
            hleft (fun head hhead => hhere head (List.mem_cons_of_mem _ hhead)) htarget
        rw [selectOne, collectedOne_field hincluded]
        refine (field_tracks hhost hshared runtime hshape (hhere head List.mem_cons_self) children htype data).bind
          fun result hresult => .pure fun hsame => ?_
        rw [hresult hsame, selected, List.filterMap_cons, List.filterMap_nil, entry?]
        dsimp only
        cases scope.fieldOutline runtime type data depth head with
        | none => simp
        | some outline => simp [mergeEntries_cons]
      | inline condition directives pos children =>
        rw [hselection] at hincluded
        rw [hselection, Selection.heads] at hhere
        rw [selectOne, collectedOne_inline hincluded]
        split
        · exact select_tracks hhost hshared hplaced runtime left owner children type data depth entries hleft hhere
            htype
        · exact .pure fun _ => by simp
      | spread name directives pos =>
        rw [hselection] at hincluded
        rw [selectOne, collectedOne_spread hincluded, expand_eq]
        cases hfragment : Members.get? name left with
        | none => exact .pure fun _ => by simp [failed]
        | some fragment =>
          dsimp only [Option.map_some]
          split
          · have hselections := hleft.selections? hfragment
            refine (select_tracks hhost hshared hplaced runtime (Members.erase name left) (.fragment name)
              fragment.selections type data depth entries (hleft.erase name)
              (fun head hhead => hplaced.head? hselections hhead) htype).bind fun result hresult => ?_
            exact .pure hresult
          · exact .pure fun _ => by simp
    rw [select, collected_cons]
    cases homission : scope.omission? selection.directives with
    | some warnings =>
      rw [collectedOne_omitted homission]
      refine Ensures.bind (.pure rfl) fun first (hfirst : (entries, warnings) = first) => ?_
      rw [← hfirst]
      refine (hrest entries).bind fun second hsecond => ?_
      exact .pure hsecond
    | none =>
      refine (hone homission).bind fun first hfirst => (hrest first.1).bind fun second hsecond => .pure fun hsame => ?_
      rw [selected_append, mergeEntries_append, ← hfirst hsame]
      exact hsecond hsame
termination_by (left.length, sizeOf selections)
decreasing_by
  all_goals first
    | exact Prod.Lex.left _ _ (Members.length_erase_lt ‹_›)
    | (apply Prod.Lex.right
       simp only [*, List.cons.sizeOf_spec, Selection.field.sizeOf_spec, Selection.inline.sizeOf_spec]
       omega)

end Selections

end Scope

/-! ### Operations -/

namespace Service

variable {ω ε α : Type} {service : Service ω ε α} {document : Document} {operation : Operation} {type : TypeDecl}
  {variableValues : List (String × Value)} {runtime : Runtime ε α}

/-- The execution of an operation in a copy of its own keeps track. -/
theorem perform_tracks (hhost : service.host.Discreet) (hruntime : runtime.Numbered) (hplaced : document.Placed)
    (hoperation : document.selections? (.operation operation.name) = some operation.selections)
    (htype : service.schema.type? type.name = some type) :
    let scope := service.scope document runtime.next runtime.fresh.2.next operation variableValues
    let result := service.perform document runtime.next operation type variableValues runtime.fresh.2
    (service.host.Deterministic → result.1.1 = mergeEntries []
      (scope.selected runtime type (service.root operation.kind) service.maxDepth
        (scope.collected type document.fragments operation.selections))) ∧ scope.Tracks result.2 := by
  intro scope result
  have hstart : scope.Tracks { runtime := runtime.fresh.2.fresh.2 } := by
    refine ⟨hruntime.fresh.fresh, Nat.lt_succ_self _, fun sub hsub => absurd hsub (by simp), hruntime.conceals.fresh,
      fun entry hentry hcopy => ?_, fun call hcall => absurd hcall (by simp)⟩
    exact absurd hcopy (Nat.ne_of_lt (hruntime.plans entry hentry))
  have hshared : scope.shared ≠ scope.copy := Nat.succ_ne_self runtime.next
  exact Scope.select_tracks (Scope.undisturbed_of_discreet hhost) hshared hplaced runtime document.fragments
    (.operation operation.name) operation.selections type (service.root operation.kind) service.maxDepth [] document.leaves_all
    (fun head hhead => hplaced.head? hoperation hhead) htype _ hstart

/-- The operation that is chosen is found by its name. -/
theorem get?_operation {name : Option String} (h : document.operation? name = .ok operation) :
    Members.get? operation.name document.operations = some operation := by
  unfold Document.operation? at h
  split at h
  · split at h
    · next hfound =>
      cases h
      rw [show operation.name = _ from Members.name_of_get? hfound]
      exact hfound
    · cases h
  · next hsingle =>
    cases h
    rw [hsingle]
    simp [Members.get?, HasName.name]
  · cases h
  · cases h

/-- What is prepared is the chosen operation, with the values of its variables and the root type of its kind. -/
theorem prepare_eq_ok {name : Option String} {supplied : List (String × Value)}
    (h : service.prepare document name supplied = .ok (operation, type, variableValues)) :
    document.operation? name = .ok operation ∧
      VariableDef.values service.schema supplied operation.variableDefs = (variableValues, []) ∧
        service.schema.rootType? operation.kind = some type := by
  unfold prepare at h
  split at h
  · cases h
  · next hoperation =>
    split at h
    · cases h
    · next hvalues =>
      split at h
      · cases h
      · next htype =>
        cases h
        exact ⟨hoperation, hvalues, htype⟩

/-- What is executed is an operation of the document, on a type of the schema. -/
theorem prepare_spec {name : Option String} {supplied : List (String × Value)}
    (h : service.prepare document name supplied = .ok (operation, type, variableValues)) :
    document.selections? (.operation operation.name) = some operation.selections ∧
      service.schema.type? type.name = some type := by
  obtain ⟨hoperation, -, htype⟩ := prepare_eq_ok h
  exact ⟨congrArg (Option.map Operation.selections) (get?_operation hoperation), Schema.type?_self htype⟩

theorem registered_numbered {scope : Scope ω ε α} {run : Run ε α} (h : scope.Tracks run) :
    ((run.runtime.addPlans (run.runtime.plans.forCopy scope.copy scope.shared)).register run.captured).Numbered where
  plans := by
    refine (h.numbered.addPlans fun entry hentry => ?_).plans
    obtain ⟨original, -, rfl⟩ := List.mem_map.1 hentry
    exact h.shared
  subscriptions := by
    intro sub hsub
    rcases List.mem_append.1 hsub with hsub | hsub
    · exact h.numbered.subscriptions sub hsub
    · rw [h.captured sub hsub]
      exact h.shared

/-- Resolving a request uses only numbers that were given out. -/
theorem resolve_numbered (hhost : service.host.Discreet) (hruntime : runtime.Numbered) (source : List UInt8)
    (name : Option String) (supplied : List (String × Value)) :
    (service.resolve source name supplied runtime).2.Numbered := by
  unfold resolve
  cases hdocument : service.schema.request? source with
  | error errors => exact hruntime
  | ok document =>
    show (service.execute document runtime.next name supplied runtime.fresh.2).2.Numbered
    unfold execute
    cases hprepare : service.prepare document name supplied with
    | error errors => exact hruntime.fresh
    | ok prepared =>
      obtain ⟨operation, type, variableValues⟩ := prepared
      obtain ⟨hoperation, htype⟩ := prepare_spec hprepare
      have htracks : (service.scope document runtime.next runtime.fresh.2.next operation variableValues).Tracks
          (service.perform document runtime.next operation type variableValues runtime.fresh.2).2 :=
        (perform_tracks hhost hruntime (Schema.request?_placed hdocument) hoperation htype).2
      show (service.run document runtime.next operation type variableValues runtime.fresh.2).2.Numbered
      unfold run
      generalize service.perform document runtime.next operation type variableValues runtime.fresh.2 = result
        at htracks
      obtain ⟨⟨entries, errors⟩, run⟩ := result
      dsimp only at htracks ⊢
      split
      · exact htracks.numbered
      · exact registered_numbered htracks

end Service

end GraphQL
