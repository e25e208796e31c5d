import GraphQL.Proofs.Execution.Beside

/-!
# Fields by themselves

What comes of a field stays with it. If the resolvers of two executions agree on all fields that are met outside one
place of the response, the responses agree beside that place (`Service.execute_isolated`), whatever the field there is
resolved to on either side, or fails with. The executions are compared step by step. At the place and below it nothing
is compared, each execution just keeps track of its own.
-/

namespace GraphQL

namespace Scope

variable {ω ε α : Type}

/-! ### Fields -/

section Field

variable {scope : Scope ω ε α} {resolvers : Resolvers ω ε α} {copy shared depth : Nat} {way : Way}
  {runtime : Runtime ε α} {owner : PlanOwner} {parent : TypeDecl} {decl : FieldDef} {head : FieldHead}
  {data : Data ω ε} {shape shape' : Shape ω ε α} {entries entries' : TypeDecl → Data ω ε → List (String × Value)}

/-- Each of the executions keeps track of its own copy. -/
abbrev TrackApart (scope : Scope ω ε α) (resolvers : Resolvers ω ε α) (copy shared : Nat) (run run' : Run ε α) :
    Prop :=
  scope.Tracks run ∧ (scope.resolvedBy resolvers copy shared).Tracks run'

/-- Save for reports of unknown arguments, what comes of the arguments of a field depends on the request only. -/
private theorem fieldArguments_beside (way : Way) (hparent : scope.schema.type? parent.name = some parent)
    (hhead : scope.document.head? owner head.pos = some head) (hdecl : parent.field? head.name = some decl) :
    Ensures scope.Tracks (scope.fieldArguments owner parent decl head) fun result =>
      ∃ unknown, Errors.beside way unknown = [] ∧
        result = match scope.arguments decl (ArgumentPlan.of decl head.args).order with
          | .ok args => (some args, unknown)
          | .error fault => (none, unknown ++ [.ofFault fault]) := by
  unfold fieldArguments
  refine (plan_tracks hparent hhead hdecl).bind fun result hresult => ?_
  obtain ⟨plan, isNew⟩ := result
  obtain rfl : plan = ArgumentPlan.of decl head.args := hresult
  have hunknown : Errors.beside way (if isNew then (ArgumentPlan.of decl head.args).unknown.map fun name =>
      Error.ofFault (.unknownArgument parent.name decl.name name) else []) = [] := by
    split
    · exact Errors.beside_unknown _ _ _
    · rfl
  dsimp only
  cases scope.arguments decl (ArgumentPlan.of decl head.args).order with
  | ok args => exact .pure ⟨_, hunknown, rfl⟩
  | error fault => exact .pure ⟨_, hunknown, rfl⟩

/-- A field on which the resolvers agree is resolved to the same. -/
private theorem dispatch_beside (hhost : scope.Undisturbed)
    (hhost' : (scope.resolvedBy resolvers copy shared).Undisturbed) (hstateless : scope.service.host.Stateless)
    (runtime : Runtime ε α) {call : ResolverCall} (hcall : scope.CallFor call)
    (hagree : scope.service.host.Agrees resolvers data call.head call.args) :
    Together (scope.TrackApart resolvers copy shared) (scope.dispatch data call)
      ((scope.resolvedBy resolvers copy shared).dispatch data call) fun result result' =>
        result = result' ∧ result.toOption = scope.resolved? runtime data call.head call.args := by
  have hcall' : (scope.resolvedBy resolvers copy shared).CallFor call := by
    refine ⟨hcall.parent, hcall.decl, ?_⟩
    rw [arguments_resolvedBy]
    exact hcall.args
  rintro run run' ⟨hrun, hrun'⟩
  refine ⟨?_, (dispatch_tracks hhost runtime data hcall run hrun).2,
    (dispatch_tracks hhost' runtime data hcall' run' hrun').2⟩
  cases data with
  | object o =>
    have hsame := hstateless o call.head call.args run.runtime
    exact ⟨(hsame run'.runtime).trans (hagree run'.runtime), congrArg Except.toOption (hsame runtime)⟩
  | node n =>
    refine ⟨rfl, ?_⟩
    show ((n.resolve scope.schema call.head.name call.args).mapError Error.ofFault).toOption =
      (n.resolve scope.schema call.head.name call.args).toOption
    cases n.resolve scope.schema call.head.name call.args <;> rfl
  | value v => exact ⟨hagree, rfl⟩
  | null | list _ | endpoint _ => exact ⟨rfl, rfl⟩

/-- A declared field on which the resolvers agree has the same value beside the place. -/
private theorem declaredField_beside (hhost : scope.Undisturbed)
    (hhost' : (scope.resolvedBy resolvers copy shared).Undisturbed) (hstateless : scope.service.host.Stateless)
    (runtime : Runtime ε α) (hsubscribing : scope.subscribing = false)
    (hparent : scope.schema.type? parent.name = some parent)
    (hhead : scope.document.head? owner head.pos = some head) (hdecl : parent.field? head.name = some decl)
    (hagree : scope.AgreesAt resolvers parent data head)
    (hshape : depth ≠ 0 → scope.ShapesBeside (scope.TrackApart resolvers copy shared) way
      (scope.declaredOutline runtime decl data depth head) shape shape' (depth - 1)) (children : List Selection) :
    Together (scope.TrackApart resolvers copy shared)
      (scope.declaredField owner head children shape parent decl data depth)
      ((scope.resolvedBy resolvers copy shared).declaredField owner head children shape' parent decl data depth)
      fun result result' =>
        result.1.hideAt way = result'.1.hideAt way ∧ Errors.beside way result.2 = Errors.beside way result'.2 := by
  have harguments : Ensures scope.Tracks (scope.fieldArguments owner parent decl head) _ :=
    fieldArguments_beside way hparent hhead hdecl
  have harguments' : Ensures (scope.resolvedBy resolvers copy shared).Tracks
      ((scope.resolvedBy resolvers copy shared).fieldArguments owner parent decl head) _ :=
    fieldArguments_beside way hparent hhead hdecl
  unfold declaredField
  refine (Together.apart harguments harguments').bind fun result result' hresult => ?_
  obtain ⟨⟨unknown, hunknown, rfl⟩, unknown', hunknown', rfl⟩ := hresult
  rw [arguments_resolvedBy]
  unfold declaredOutline at hshape
  cases hargs : scope.arguments decl (ArgumentPlan.of decl head.args).order with
  | error fault =>
    refine .pure ⟨rfl, ?_⟩
    rw [Errors.beside_append, Errors.beside_append, hunknown, hunknown']
  | ok args =>
    rw [hargs] at hshape
    dsimp only at hshape ⊢
    refine (dispatch_beside hhost hhost' hstateless runtime ⟨hparent, hdecl, hargs⟩
      (hagree decl args hdecl hargs)).bind fun resolved resolved' hresolved => ?_
    obtain ⟨rfl, hresolved⟩ := hresolved
    dsimp only at hresolved
    rw [← hresolved, hsubscribing] at hshape
    rw [subscribing_resolvedBy, hsubscribing]
    cases resolved with
    | error e =>
      refine .pure ⟨rfl, ?_⟩
      rw [Errors.beside_append, Errors.beside_append, hunknown, hunknown']
    | ok resolved =>
      have hvalue : Together (scope.TrackApart resolvers copy shared)
          (scope.complete shape depth decl.type resolved >>= fun result => pure (result.1, unknown ++ result.2))
          ((scope.resolvedBy resolvers copy shared).complete shape' depth decl.type resolved >>= fun result =>
            pure (result.1, unknown' ++ result.2)) fun result result' =>
              result.1.hideAt way = result'.1.hideAt way ∧
                Errors.beside way result.2 = Errors.beside way result'.2 := by
        have hshape (hdepth : depth ≠ 0) : scope.ShapesBeside (scope.TrackApart resolvers copy shared) way
            (scope.outline depth decl.type resolved) shape shape' (depth - 1) := by
          cases resolved <;> exact hshape hdepth
        refine (complete_beside decl.type resolved hshape).bind fun result result' hresult => ?_
        refine .pure ⟨hresult.result, ?_⟩
        rw [Errors.beside_append, Errors.beside_append, hunknown, hunknown', hresult.errors]
      cases resolved with
      | null | value _ | list _ | object _ | node _ | endpoint _ => exact hvalue

/-- A field on which the resolvers agree has the same value beside the place, if it has one. At the place itself it
has any value on either side, or none on both. -/
private theorem field_beside (hhost : scope.Undisturbed)
    (hhost' : (scope.resolvedBy resolvers copy shared).Undisturbed) (hstateless : scope.service.host.Stateless)
    (hshared : scope.shared ≠ scope.copy) (hshared' : shared ≠ copy) (hsubscribing : scope.subscribing = false)
    (hparent : scope.schema.type? parent.name = some parent)
    (hhead : scope.document.head? owner head.pos = some head)
    (hagree : way ≠ some [] → scope.AgreesAt resolvers parent data head)
    (hkeeps : depth ≠ 0 → scope.Shapes scope.Tracks scope.service.host.Deterministic shape (depth - 1) entries)
    (hkeeps' : depth ≠ 0 → let scope' := scope.resolvedBy resolvers copy shared
      scope'.Shapes scope'.Tracks scope'.service.host.Deterministic shape' (depth - 1) entries')
    (hshape : depth ≠ 0 → ∀ outline, scope.fieldOutline runtime parent data depth head = some outline →
      scope.ShapesBeside (scope.TrackApart resolvers copy shared) way outline shape shape' (depth - 1))
    (children : List Selection) :
    Together (scope.TrackApart resolvers copy shared) (scope.field owner head children shape parent data depth)
      ((scope.resolvedBy resolvers copy shared).field owner head children shape' parent data depth)
      fun result result' =>
        result.1.map (·.hideAt way) = result'.1.map (·.hideAt way) ∧
          Errors.beside way result.2 = Errors.beside way result'.2 := by
  unfold field
  unfold fieldOutline at hshape
  rw [introspection?_resolvedBy]
  split
  · exact .pure ⟨rfl, rfl⟩
  · next hname =>
    rw [if_neg hname] at hshape
    cases hintrospection : scope.introspection? parent head with
    | some introspected =>
      rw [hintrospection] at hshape
      cases introspected with
      | error fault => exact .pure ⟨rfl, rfl⟩
      | ok introspected =>
        obtain ⟨data, type⟩ := introspected
        refine (complete_beside type data fun hdepth => hshape hdepth _ rfl).bind fun result result' hresult => ?_
        exact .pure ⟨congrArg some hresult.result, hresult.errors⟩
    | none =>
      rw [hintrospection] at hshape
      dsimp only at hshape ⊢
      cases hdecl : parent.field? head.name with
      | none => exact .pure ⟨rfl, rfl⟩
      | some decl =>
        rw [hdecl] at hshape
        by_cases hway : way = some []
        · -- each execution goes on by itself
          subst hway
          have htracks := declaredField_tracks hhost hshared runtime hkeeps hhead children hparent hdecl data
          have htracks' := @declaredField_tracks _ _ _ (scope.resolvedBy resolvers copy shared) owner hhost' hshared'
            runtime shape' depth entries' hkeeps' head hhead children parent hparent decl hdecl data
          refine (Together.apart htracks htracks').bind fun result result' _ => .pure ⟨?_, ?_⟩
          · show some (result.1.hideAt (some [])) = some (result'.1.hideAt (some []))
            rw [Value.hideAt_here, Value.hideAt_here]
          · rw [Errors.beside_here, Errors.beside_here]
        · have hdeclared := declaredField_beside hhost hhost' hstateless runtime hsubscribing hparent hhead hdecl
            (hagree hway) (fun hdepth => hshape hdepth _ rfl) children
          exact hdeclared.bind fun result result' hresult => .pure ⟨congrArg some hresult.1, hresult.2⟩

end Field

/-! ### Selection sets -/

section Selections

variable {scope : Scope ω ε α} {resolvers : Resolvers ω ε α} {copy shared : Nat}

/-- What is selected below a field is tracked in an execution by itself. -/
private theorem children_tracks (hhost : scope.Undisturbed) (hshared : scope.shared ≠ scope.copy)
    (hplaced : scope.document.Placed) (runtime : Runtime ε α) (owner : PlanOwner) (head : FieldHead)
    {children : List Selection} {left : List Fragment} (hleft : scope.document.Leaves left)
    (hheads : ∀ head ∈ Selection.headsOf children, scope.document.head? owner head.pos = some head) {depth : Nat}
    (hdepth : depth ≠ 0) :
    scope.Shapes scope.Tracks scope.service.host.Deterministic
      (fun type data depth => scope.select (scope.expand left) owner children type data depth []) (depth - 1)
      (scope.selectedBelow runtime depth { head, children, left }) := by
  intro target data htarget
  obtain ⟨below, rfl⟩ := Nat.exists_eq_succ_of_ne_zero hdepth
  exact select_tracks hhost hshared hplaced runtime left owner children target data below [] hleft hheads htarget

private theorem cons_beside {inv : Run ε α → Run ε α → Prop} {expand expand' : String → Option (Expansion ω ε α)}
    {owner : PlanOwner} {selection : Selection} {rest : List Selection} {type : TypeDecl} {data : Data ω ε}
    {depth : Nat} {way : Way} {entries entries' : List (String × Value)}
    (hentries : Value.hideEntries way entries = Value.hideEntries way entries')
    (hone : scope.omission? selection.directives = none →
      Together inv (scope.selectOne expand owner selection type data depth entries)
        ((scope.resolvedBy resolvers copy shared).selectOne expand' owner selection type data depth entries')
        (Outcome.EntriesBeside way))
    (hrest : ∀ entries entries', Value.hideEntries way entries = Value.hideEntries way entries' →
      Together inv (scope.select expand owner rest type data depth entries)
        ((scope.resolvedBy resolvers copy shared).select expand' owner rest type data depth entries')
        (Outcome.EntriesBeside way)) :
    Together inv (scope.select expand owner (selection :: rest) type data depth entries)
      ((scope.resolvedBy resolvers copy shared).select expand' owner (selection :: rest) type data depth entries')
      (Outcome.EntriesBeside way) := by
  have hboth {first first' : Outcome (List (String × Value))} (hfirst : Outcome.EntriesBeside way first first') :
      Together inv
        (scope.select expand owner rest type data depth first.1 >>= fun result =>
          pure (result.1, first.2 ++ result.2))
        ((scope.resolvedBy resolvers copy shared).select expand' owner rest type data depth first'.1 >>= fun result =>
          pure (result.1, first'.2 ++ result.2)) (Outcome.EntriesBeside way) :=
    (hrest _ _ hfirst.result).bind fun _ _ hresult => .pure (hresult.behind hfirst.errors)
  rw [select, select, omission?_resolvedBy]
  cases homission : scope.omission? selection.directives with
  | some warnings =>
    have hwarnings : Outcome.EntriesBeside way (entries, warnings) (entries', warnings) := ⟨hentries, rfl⟩
    exact (Together.pure hwarnings).bind fun _ _ hfirst => hboth hfirst
  | none => exact (hone homission).bind fun _ _ hfirst => hboth hfirst

/-- Executing a selection set gives the same entries beside the place if the resolvers agree there. The recursion is
that of `Selection.levels`: on the fragments that are left, and then on the selections. -/
theorem select_beside (hhost : scope.Undisturbed) (hhost' : (scope.resolvedBy resolvers copy shared).Undisturbed)
    (hstateless : scope.service.host.Stateless) (hshared : scope.shared ≠ scope.copy) (hshared' : shared ≠ copy)
    (hsubscribing : scope.subscribing = false) (hplaced : scope.document.Placed) (runtime : Runtime ε α)
    (left : List Fragment) (owner : PlanOwner) (selections : List Selection) (type : TypeDecl) (data : Data ω ε)
    (depth : Nat) (way : Way) (entries entries' : List (String × Value)) (hleft : scope.document.Leaves left)
    (hheads : ∀ head ∈ Selection.headsOf selections, scope.document.head? owner head.pos = some head)
    (htype : scope.schema.type? type.name = some type)
    (hagree : scope.AgreesBeside resolvers runtime way type data depth (scope.collected type left selections))
    (hentries : Value.hideEntries way entries = Value.hideEntries way entries') :
    Together (scope.TrackApart resolvers copy shared)
      (scope.select (scope.expand left) owner selections type data depth entries)
      ((scope.resolvedBy resolvers copy shared).select ((scope.resolvedBy resolvers copy shared).expand left) owner
        selections type data depth entries') (Outcome.EntriesBeside way) := by
  match selections with
  | [] =>
    rw [select, select]
    exact .pure ⟨hentries, rfl⟩
  | selection :: rest =>
    rw [Selection.headsOf] at hheads
    rw [collected_cons] at hagree
    have hhere := fun head hhead => hheads head (List.mem_append_left _ hhead)
    refine cons_beside hentries (fun hincluded => ?_) fun entries entries' hentries =>
      select_beside hhost hhost' hstateless hshared hshared' hsubscribing hplaced runtime left owner rest type data
        depth way entries entries' hleft (fun head hhead => hheads head (List.mem_append_right _ hhead)) htype
        (hagree.mono (List.subset_append_right _ _)) hentries
    have hagree := hagree.mono (List.subset_append_left _ _)
    cases hselection : selection with
    | field head children =>
      rw [hselection] at hincluded hagree
      rw [hselection, Selection.heads] at hhere
      rw [collectedOne_field hincluded] at hagree
      have hchildren := fun head' hhead' => hhere head' (List.mem_cons_of_mem head hhead')
      rw [selectOne, selectOne]
      have hkeeps (hdepth : depth ≠ 0) :=
        children_tracks hhost hshared hplaced runtime owner head hleft hchildren hdepth
      have hkeeps' (hdepth : depth ≠ 0) :=
        @children_tracks _ _ _ (scope.resolvedBy resolvers copy shared) hhost' hshared' hplaced runtime owner head
          children left hleft hchildren depth hdepth
      have hshape (hdepth : depth ≠ 0) (outline : Outline ω ε)
          (houtline : scope.fieldOutline runtime type data depth head = some outline) :
          scope.ShapesBeside (scope.TrackApart resolvers copy shared) (way.step (.key head.key)) outline
            (fun type data depth => scope.select (scope.expand left) owner children type data depth [])
            (fun type data depth => (scope.resolvedBy resolvers copy shared).select
              ((scope.resolvedBy resolvers copy shared).expand left) owner children type data depth [])
            (depth - 1) := by
        obtain ⟨below, rfl⟩ := Nat.exists_eq_succ_of_ne_zero hdepth
        intro path target inner hobject htarget
        refine select_beside hhost hhost' hstateless hshared hshared' hsubscribing hplaced runtime left owner children
          target inner below _ [] [] hleft hchildren htarget ?_ rfl
        exact hagree.below { head, children, left } List.mem_cons_self houtline hobject
      have hhead := hhere head List.mem_cons_self
      refine (field_beside hhost hhost' hstateless hshared hshared' hsubscribing htype hhead
        (hagree.here { head, children, left } List.mem_cons_self) hkeeps hkeeps' hshape
        children).bind fun result result' hresult => .pure ⟨?_, Errors.beside_prefixed _ hresult.2⟩
      obtain ⟨value?, errors⟩ := result
      obtain ⟨value?', errors'⟩ := result'
      have hvalue : value?.map (·.hideAt (way.step (.key head.key))) = value?'.map _ := hresult.1
      cases value? with
      | none =>
        rw [Option.map_eq_none_iff.1 hvalue.symm]
        exact hentries
      | some v =>
        obtain ⟨v', rfl, hv⟩ := Option.map_eq_some_iff.1 hvalue.symm
        exact Value.hideEntries_mergeEntry hentries hv.symm
    | inline condition directives pos children =>
      rw [hselection] at hincluded hagree
      rw [hselection, Selection.heads] at hhere
      rw [collectedOne_inline hincluded] at hagree
      rw [selectOne, selectOne, applies_resolvedBy]
      split
      · next happlies =>
        rw [if_pos happlies] at hagree
        exact select_beside hhost hhost' hstateless hshared hshared' hsubscribing hplaced runtime left owner children
          type data depth way entries entries' hleft hhere htype hagree hentries
      · exact .pure ⟨hentries, rfl⟩
    | spread name directives pos =>
      rw [hselection] at hincluded hagree
      rw [collectedOne_spread hincluded] at hagree
      rw [selectOne, selectOne, expand_eq, expand_eq]
      cases hfragment : Members.get? name left with
      | none => exact .pure ⟨hentries, rfl⟩
      | some fragment =>
        rw [hfragment] at hagree
        dsimp only [Option.map_some] at hagree ⊢
        rw [applies_resolvedBy]
        split
        · next happlies =>
          rw [if_pos happlies] at hagree
          have hselections := hleft.selections? hfragment
          refine (select_beside hhost hhost' hstateless hshared hshared' hsubscribing hplaced runtime
            (Members.erase name left) (.fragment name) fragment.selections type data depth way entries entries'
            (hleft.erase name) (fun head hhead => hplaced.head? hselections hhead) htype hagree hentries).bind
            fun result result' hresult => .pure ⟨hresult.result, Errors.beside_labelled pos hresult.errors⟩
        · exact .pure ⟨hentries, rfl⟩
termination_by (left.length, sizeOf selections)
decreasing_by
  all_goals first
    | exact Prod.Lex.left _ _ (Members.length_erase_lt ‹_›)
    | (apply Prod.Lex.right
       simp only [*, List.cons.sizeOf_spec, Selection.field.sizeOf_spec, Selection.inline.sizeOf_spec]
       omega)

end Selections

end Scope

/-! ### Operations -/

namespace Service

variable {ω ε α : Type} {service : Service ω ε α} {resolvers : Resolvers ω ε α} {document : Document}

/-- The resolvers give the same for all fields that are met while an operation is executed, save for fields at the
place or below it. -/
def AgreesBeside (service : Service ω ε α) (resolvers : Resolvers ω ε α) (document : Document) (copy : Nat)
    (name : Option String) (supplied : List (String × Value)) (runtime : Runtime ε α) (target : List PathSegment) :
    Prop :=
  ∀ operation type variableValues, service.prepare document name supplied = .ok (operation, type, variableValues) →
    let scope := service.scope document copy runtime.next operation variableValues
    scope.AgreesBeside resolvers runtime (some target) type (service.root operation.kind) service.maxDepth
      (scope.collected type document.fragments operation.selections)

/-- Whatever the field at a place is resolved to, or fails with, the response of a query or a mutation stays the same
beside that place: all of the data that is not at the place or below it, and all errors whose paths do not lead there,
save for reports of unknown arguments. -/
theorem execute_isolated (hstateless : service.host.Stateless) (hhost : service.host.Discreet)
    (hhost' : (service.resolvedBy resolvers).host.Discreet) (hplaced : document.Placed)
    {runtime runtime' : Runtime ε α} {copy copy' : Nat} (hruntime : runtime.Holds service.schema document copy)
    (hruntime' : runtime'.Holds service.schema document copy') {name : Option String}
    {supplied : List (String × Value)}
    (hkind : ∀ operation, document.operation? name = .ok operation → operation.kind ≠ .subscription)
    {target : List PathSegment}
    (hagree : service.AgreesBeside resolvers document copy name supplied runtime target) :
    let response := (service.execute document copy name supplied runtime).1
    let response' := ((service.resolvedBy resolvers).execute document copy' name supplied runtime').1
    response.data.hide target = response'.data.hide target ∧
      (∀ path, ¬ target <+: path → ¬ path <+: target → response.data.at? path = response'.data.at? path) ∧
      Errors.beside (some target) response.errors = Errors.beside (some target) response'.errors := by
  intro response response'
  suffices hsame : response.data.hide target = response'.data.hide target ∧
      Errors.beside (some target) response.errors = Errors.beside (some target) response'.errors by
    refine ⟨hsame.1, fun path hbelow habove => ?_, hsame.2⟩
    have hparted := Way.walk_of_parted hbelow habove
    rw [← Value.at?_hideAt hparted, Value.hideAt, hsame.1, ← Value.hideAt, Value.at?_hideAt hparted]
  unfold response response' execute
  rw [show (service.resolvedBy resolvers).prepare = service.prepare from rfl]
  cases hprepare : service.prepare document name supplied with
  | error errors => exact ⟨rfl, rfl⟩
  | ok prepared =>
    obtain ⟨operation, type, variableValues⟩ := prepared
    obtain ⟨hoperation, htype⟩ := prepare_spec hprepare
    have hquery : (operation.kind == .subscription) = false :=
      beq_eq_false_iff_ne.2 (hkind operation (prepare_eq_ok hprepare).1)
    have htracks := start_tracks hruntime operation variableValues
    have htracks' : ((service.scope document copy runtime.next operation variableValues).resolvedBy resolvers copy'
        runtime'.next).Tracks { runtime := runtime'.fresh.2 } :=
      @start_tracks _ _ _ (service.resolvedBy resolvers) _ _ _ hruntime' operation variableValues
    have hselect := (@Scope.select_beside _ _ _ (service.scope document copy runtime.next operation variableValues)
      resolvers copy' runtime'.next (Scope.undisturbed_of_discreet hhost) (Scope.undisturbed_of_discreet hhost')
      hstateless (Nat.ne_of_gt hruntime.conceals.used) (Nat.ne_of_gt hruntime'.conceals.used) hquery hplaced runtime
      document.fragments (.operation operation.name) operation.selections type (service.root operation.kind)
      service.maxDepth (some target) [] [] document.leaves_all (fun head hhead => hplaced.head? hoperation hhead)
      htype (hagree operation type variableValues hprepare) rfl _ _ ⟨htracks, htracks'⟩).1
    show Value.hide target (service.run document copy operation type variableValues runtime).1.data =
      Value.hide target
        ((service.resolvedBy resolvers).run document copy' operation type variableValues runtime').1.data ∧ _
    rw [run_query hquery, run_query hquery]
    refine ⟨?_, hselect.errors⟩
    show (Value.object _).hideAt (some target) = (Value.object _).hideAt (some target)
    by_cases htarget : (some target : Way) = some []
    · rw [htarget, Value.hideAt_here, Value.hideAt_here]
    · rw [Value.hideAt_object htarget, Value.hideAt_object htarget]
      exact congrArg Value.object hselect.result

/-- A service with two songs. -/
private def albums : Service Nat Empty Unit where
  schema :=
    { types :=
        [{ name := "String", builtin := true, body := .scalar .string },
          { name := "Query", body := .object { fields := [{ name := "songs", type := .list (.named "Song") }] } },
          { name := "Song"
            body := .object { fields := [{ name := "title", type := .named "String" },
                                         { name := "singer", type := .named "String" }] } }] }
  root _ := .object 2
  host :=
    { typeName _ := "Song", implementation? _ := none, items? _ := none, untyped := .plain
      resolve _ head _ runtime :=
        if head.name = "songs" then (.ok (.list [.object 0, .object 1]), runtime)
        else (.ok (.value (.string head.name)), runtime)
      accepts := nofun, send := nofun, dismiss := nofun }

/-- The second song has no title. -/
private def nameless : Resolvers Nat Empty Unit where
  object o head args runtime :=
    if o = 1 ∧ head.name = "title" then (.error (.ofFault .noOperation), runtime)
    else albums.host.resolve o head args runtime
  value := UntypedResolver.plain.resolve

private def songSelections : List Selection :=
  [.field { name := "title", pos := ⟨1, 8⟩ } [], .field { name := "singer", pos := ⟨1, 14⟩ } []]

/-- What is read from `{songs{title singer}}`. -/
private def albumRequest : Document where
  operations :=
    [{ kind := .query, name := "", pos := ⟨1, 1⟩
       selections := [.field { name := "songs", pos := ⟨1, 2⟩ } songSelections] }]
  fragments := []

private theorem albumRequest_placed : albumRequest.Placed where
  operations := List.forall_mem_singleton.2 (show List.Nodup _ by decide)
  fragments := nofun

private theorem albums_confined : albums.host.Confined fun _ head _ app =>
    if head.name = "songs" then (.ok (.list [.object 0, .object 1]), app)
    else (.ok (.value (.string head.name)), app) := by
  intro o head args runtime
  unfold albums
  dsimp only
  split <;> rfl

private theorem nameless_confined : (albums.resolvedBy nameless).host.Confined fun o head _ app =>
    if o = 1 ∧ head.name = "title" then (.error (.ofFault .noOperation), app)
    else if head.name = "songs" then (.ok (.list [.object 0, .object 1]), app)
    else (.ok (.value (.string head.name)), app) := by
  intro o head args runtime
  show nameless.object o head args runtime = _
  unfold nameless albums
  dsimp only
  split
  · rfl
  · split <;> rfl

private theorem nameless_agrees {o : Nat} {head : FieldHead} (h : ¬ (o = 1 ∧ head.name = "title"))
    (scope : Scope Nat Empty Unit) (hhost : scope.service.host = albums.host) (parent : TypeDecl) :
    scope.AgreesAt nameless parent (.object o) head := by
  intro decl args _ _
  rw [hhost]
  exact fun runtime => congrArg Prod.fst (if_neg h).symm

/-- What is selected on a song. -/
private def songFields : List CollectedField :=
  [{ head := { name := "title", pos := ⟨1, 8⟩ }, children := [], left := [] },
    { head := { name := "singer", pos := ⟨1, 14⟩ }, children := [], left := [] }]

/-- Nothing more is met below the title and the singer of a song, and only the second song has no title. -/
private theorem song_agrees (runtime : Runtime Empty Unit) {o : Nat} {path : List PathSegment} {parent : TypeDecl}
    {value : Data Nat Empty} {head : FieldHead} :
    let scope := albums.scope albumRequest 0 runtime.next albumRequest.operations[0] []
    scope.Meets runtime albums.schema.types[2] (.object o) 99 songFields path parent value head →
      (o = 1 → path ++ [PathSegment.key head.key] ≠ [.key "title"]) → scope.AgreesAt nameless parent value head := by
  intro scope hmeets htitle
  cases hmeets with
  | here hfield =>
    refine nameless_agrees (fun hsame => ?_) scope rfl _
    rcases List.mem_pair.1 hfield with rfl | rfl
    · exact htitle hsame.1 rfl
    · exact absurd hsame.2 (show ("singer" : String) ≠ "title" by decide)
  | @inside _ _ _ _ field outline way _ _ _ _ _ _ hfield houtline hobject _ =>
    have hvalue : ∃ v, outline = .value v := by
      rcases List.mem_pair.1 hfield with rfl | rfl
      · refine ⟨.string "title", Option.some.inj (houtline.symm.trans ?_)⟩
        cbv
      · refine ⟨.string "singer", Option.some.inj (houtline.symm.trans ?_)⟩
        cbv
    obtain ⟨v, rfl⟩ := hvalue
    rcases way with _ | ⟨_ | _, _⟩ <;> cases hobject

private theorem albums_agree (runtime : Runtime Empty Unit) :
    albums.AgreesBeside nameless albumRequest 0 none [] runtime [.key "songs", .index 1, .key "title"] := by
  intro operation type variableValues hprepare
  have hquery : albums.prepare albumRequest none [] =
      .ok (albumRequest.operations[0], albums.schema.types[1], []) := by rfl
  cases hquery.symm.trans hprepare
  intro scope path parent value head hmeets hway
  have hroot : scope.collected albums.schema.types[1] albumRequest.fragments albumRequest.operations[0].selections =
      [{ head := { name := "songs", pos := ⟨1, 2⟩ }, children := songSelections, left := [] }] := by
    simp [albumRequest, Scope.collected, Scope.omission?, Selection.directives]
  rw [hroot] at hmeets
  cases hmeets with
  | here hfield => exact nameless_agrees (by simp) scope rfl _
  | @inside _ _ _ _ field outline way inner target _ song _ _ hfield houtline hobject hinside =>
    obtain rfl := List.mem_singleton.1 hfield
    have hsongs : outline =
        .list [.object albums.schema.types[2] (.object 0), .object albums.schema.types[2] (.object 1)] := by
      refine Option.some.inj (houtline.symm.trans ?_)
      cbv
    subst hsongs
    have hsong : ∃ o, way = [.index o] ∧ albums.schema.types[2] = target ∧ .object o = song := by
      rcases way with _ | ⟨_ | _ | _ | _, _ | ⟨_ | _, _⟩⟩ <;> cases hobject
      · exact ⟨0, rfl, rfl, rfl⟩
      · exact ⟨1, rfl, rfl, rfl⟩
    obtain ⟨o, rfl, rfl, rfl⟩ := hsong
    have hfields : scope.collected albums.schema.types[2] [] songSelections = songFields := by
      simp [songSelections, songFields, Scope.collected, Scope.omission?, Selection.directives]
    rw [hfields] at hinside
    refine song_agrees runtime hinside fun ho hpath => hway ?_
    rw [ho, List.append_assoc, hpath]
    rfl

theorem albums_isolated :
    let response := (albums.execute albumRequest 0 none [] { next := 1, app := () }).1
    let response' := ((albums.resolvedBy nameless).execute albumRequest 0 none [] { next := 1, app := () }).1
    let target : List PathSegment := [.key "songs", .index 1, .key "title"]
    (response.data = .object [("songs", .list [.object [("title", .string "title"), ("singer", .string "singer")],
        .object [("title", .string "title"), ("singer", .string "singer")]])] ∧
      response'.data = .object [("songs", .list [.object [("title", .string "title"), ("singer", .string "singer")],
        .object [("title", .null), ("singer", .string "singer")]])] ∧ response'.errors.map Error.path = [target]) ∧
      response.data.hide target = response'.data.hide target ∧
      (∀ path, ¬ target <+: path → ¬ path <+: target → response.data.at? path = response'.data.at? path) ∧
      Errors.beside (some target) response.errors = Errors.beside (some target) response'.errors := by
  have hholds (schema : Schema) : ({ next := 1, app := () } : Runtime Empty Unit).Holds schema albumRequest 0 :=
    (Runtime.numbered_start ()).holds _ _
  have hstateless : albums.host.Stateless := fun _ _ _ _ _ => by rw [albums_confined, albums_confined]
  have hisolated := execute_isolated hstateless albums_confined.discreet nameless_confined.discreet albumRequest_placed
    (hholds _) (hholds _) (fun _ h => by cases h; decide) (albums_agree _)
  exact ⟨⟨by cbv, by cbv, by cbv⟩, hisolated⟩

end Service

end GraphQL
