import GraphQL.Execution.Event
import GraphQL.Proofs.Execution.Ensures
import GraphQL.Proofs.Execution.Nesting

/-!
# The depth of executions

The fields of an operation are at level zero, those of an object that a field gives one level below the field. Lists,
fragments and types of data make no difference. The depth that is left for a selection set and its level make up the
depth of the service (`Scope.Nests.depth_left`), so what takes from the depth never takes from zero. All calls of
resolvers are made for fields of selection sets so nested (`Scope.Frame.calls_nest`), and a field for which no depth is
left has the data that it found as its value, whatever its type and selections (`Scope.Frame.first_raw`). This is so for
operations as it is for the payloads of events (`Service.keeps_to_depth`).
-/

namespace GraphQL

variable {ω ε α : Type}

namespace Scope

variable {scope : Scope ω ε α} {shape : Shape ω ε α} {depth level : Nat} {start frame frame' : Frame ω ε α}
  {path : List PathSegment} {call : ResolverCall}

/-! ### Levels -/

/-- The way to another selection set goes into an object that the first field gives. -/
def Frame.Descends (frame : Frame ω ε α) (path : List PathSegment) : Prop :=
  path ≠ [] ∧ ∃ head children rest, frame.selections = .field head children :: rest

/-- A selection set that is executed for another one is so many levels below it. -/
inductive Nests (scope : Scope ω ε α) (start : Frame ω ε α) : Nat → Frame ω ε α → Prop
  | start : Nests scope start 0 start
  | along {level : Nat} {frame frame' : Frame ω ε α} {path : List PathSegment} (h : Nests scope start level frame)
      (hexecutes : scope.Executes frame path frame') (hdescends : ¬ frame.Descends path) :
      Nests scope start level frame'
  | down {level : Nat} {frame frame' : Frame ω ε α} {path : List PathSegment} (h : Nests scope start level frame)
      (hexecutes : scope.Executes frame path frame') (hdescends : frame.Descends path) :
      Nests scope start (level + 1) frame'

/-- What a selection set executes is nested in it. -/
theorem Nests.head (hexecutes : scope.Executes start path frame) (h : scope.Nests frame level frame') :
    ∃ level, scope.Nests start level frame' := by
  induction h with
  | start =>
    by_cases hdescends : start.Descends path
    · exact ⟨1, .down .start hexecutes hdescends⟩
    · exact ⟨0, .along .start hexecutes hdescends⟩
  | along _ hexecutes hdescends ih => exact ih.imp fun _ h => .along h hexecutes hdescends
  | down _ hexecutes hdescends ih => exact ih.elim fun _ h => ⟨_, .down h hexecutes hdescends⟩

/-- Going into an object takes one from the depth, and there is something to take. -/
theorem Executes.depth_left (h : scope.Executes frame path frame') :
    (frame.Descends path → frame.depth = frame'.depth + 1) ∧ (¬ frame.Descends path → frame.depth = frame'.depth) := by
  cases h with
  | omitted | rest | inline => exact ⟨fun hdescends => absurd rfl hdescends.1, fun _ => rfl⟩
  | spread hselections =>
    refine ⟨fun hdescends => ?_, fun _ => rfl⟩
    obtain ⟨-, head, children, rest, hfield⟩ := hdescends
    cases hselections.symm.trans hfield
  | @field head children rest type resolved data run run' path target hselections homission hdepth =>
    refine ⟨fun _ => ?_, fun hdescends => ?_⟩
    · show frame.depth = frame.depth - 1 + 1
      omega
    · exact absurd ⟨List.cons_ne_nil _ _, head, children, rest, hselections⟩ hdescends

/-- The depth that is left and the levels that were gone down make up what there was. -/
theorem Nests.depth_left (h : scope.Nests start level frame) : frame.depth + level = start.depth := by
  induction h with
  | start => rfl
  | along _ hexecutes hdescends ih =>
    have hsame := hexecutes.depth_left.2 hdescends
    omega
  | down _ hexecutes hdescends ih =>
    have hless := hexecutes.depth_left.1 hdescends
    omega

/-! ### Calls of resolvers -/

private theorem run_bind {β γ : Type} (m : Execution ε α β) (f : β → Execution ε α γ) (run : Run ε α) :
    (m >>= f).run run = (f (m.run run).1).run (m.run run).2 := rfl

/-- The resolver is called for the first field of the selection set. -/
structure Frame.Makes (scope : Scope ω ε α) (frame : Frame ω ε α) (call : ResolverCall) : Prop where
  field : ∃ children rest, frame.selections = .field call.head children :: rest
  kept : scope.omission? call.head.directives = none
  parent : call.parent = frame.type
  decl : frame.type.field? call.head.name = some call.decl
  depth : call.depth = frame.depth

private theorem completeItems_calls {complete : Data ω ε → Execution ε α (Outcome Value)}
    {items : List (Except Error (Data ω ε))} {first : Nat} {run : Run ε α}
    (hcall : call ∈ ((completeItems complete first items).run run).2.calls) (hnew : call ∉ run.calls) :
    ∃ before item after, items = before ++ .ok item :: after ∧
      let run' := ((completeItems complete first before).run run).2
      call ∈ ((complete item).run run').2.calls ∧ call ∉ run'.calls := by
  induction items generalizing first run with
  | nil => exact absurd hcall hnew
  | cons item rest ih =>
    by_cases hitem : call ∈ ((completeItem complete item).run run).2.calls
    · cases item with
      | error e => exact absurd hitem hnew
      | ok data => exact ⟨[], data, rest, rfl, hitem, hnew⟩
    · obtain ⟨before, data, after, rfl, hcalled⟩ := ih hcall hitem
      exact ⟨item :: before, data, after, rfl, hcalled⟩

private theorem completeNamed_calls {type : TypeRef} {name : String} (hname : type.ownName? = some name)
    {data : Data ω ε} {run : Run ε α} (hcall : call ∈ ((scope.completeNamed shape depth name data).run run).2.calls)
    (hnew : call ∉ run.calls) :
    ∃ target, scope.CompletesObject shape depth type data run [] target data run ∧
      call ∈ ((shape target data (depth - 1)).run run).2.calls := by
  unfold completeNamed at hcall
  cases hdata : data.isNull with
  | true =>
    rw [hdata] at hcall
    exact absurd hcall hnew
  | false =>
    rw [hdata] at hcall
    dsimp only at hcall
    cases hdecl : scope.schema.type? name with
    | none =>
      rw [hdecl] at hcall
      exact absurd hcall hnew
    | some decl =>
      rw [hdecl] at hcall
      dsimp only at hcall
      cases hbody : decl.body with
      | object body =>
        rw [hbody] at hcall
        exact ⟨decl, .object hname hdata hdecl (by simp [TypeDecl.isObject, hbody]), hcall⟩
      | interface _ | union _ =>
        rw [hbody] at hcall
        dsimp only at hcall
        cases hconcrete : scope.concreteType decl.name data with
        | error fault =>
          rw [hconcrete] at hcall
          exact absurd hcall hnew
        | ok concrete =>
          rw [hconcrete] at hcall
          exact ⟨concrete, .abstract hname hdata hdecl (by simp [TypeDecl.isAbstract, hbody]) hconcrete, hcall⟩
      | scalar _ | enum _ | input _ | schema _ =>
        rw [hbody] at hcall
        exact absurd hcall hnew

/-- Calls are made while an object in the data is shaped, if any. -/
private theorem completeWithin_calls {type : TypeRef} {data : Data ω ε} {run : Run ε α}
    (hcall : call ∈ ((scope.completeWithin shape depth type data).run run).2.calls) (hnew : call ∉ run.calls) :
    ∃ path target data' run', scope.CompletesObject shape depth type data run path target data' run' ∧
      call ∈ ((shape target data' (depth - 1)).run run').2.calls ∧ call ∉ run'.calls := by
  induction type generalizing data run with
  | named name =>
    obtain ⟨target, hobject, hcalled⟩ := completeNamed_calls (show (TypeRef.named name).ownName? = _ from rfl) hcall hnew
    exact ⟨[], target, data, run, hobject, hcalled, hnew⟩
  | unresolved name pos =>
    obtain ⟨target, hobject, hcalled⟩ :=
      completeNamed_calls (show (TypeRef.unresolved name pos).ownName? = _ from rfl) hcall hnew
    exact ⟨[], target, data, run, hobject, hcalled, hnew⟩
  | nonNull inner ih =>
    have hinner : call ∈ ((scope.completeWithin shape depth inner data).run run).2.calls := by
      unfold completeWithin at hcall
      rw [run_bind] at hcall
      dsimp only at hcall
      split at hcall <;> exact hcall
    obtain ⟨path, target, data', run', hobject, hcalled⟩ := ih hinner hnew
    exact ⟨path, target, data', run', .nonNull hobject, hcalled⟩
  | list item ih =>
    unfold completeWithin at hcall
    cases hitems : scope.items? (TypeRef.list item).text data with
    | error fault =>
      rw [hitems] at hcall
      exact absurd hcall hnew
    | ok items =>
      rw [hitems] at hcall
      cases items with
      | none => exact absurd hcall hnew
      | some items =>
        obtain ⟨before, data', after, rfl, hitem, hnot⟩ := completeItems_calls hcall hnew
        obtain ⟨path, target, data', run', hobject, hcalled⟩ := ih hitem hnot
        exact ⟨_, target, data', run', .item hitems hobject, hcalled⟩

private theorem complete_calls {type : TypeRef} {data : Data ω ε} {run : Run ε α}
    (hcall : call ∈ ((scope.complete shape depth type data).run run).2.calls) (hnew : call ∉ run.calls) :
    depth ≠ 0 ∧ ∃ path target data' run', scope.CompletesObject shape depth type data run path target data' run' ∧
      call ∈ ((shape target data' (depth - 1)).run run').2.calls ∧ call ∉ run'.calls := by
  unfold complete at hcall
  by_cases hdepth : depth = 0
  · rw [if_pos hdepth] at hcall
    exact absurd hcall hnew
  · rw [if_neg hdepth] at hcall
    exact ⟨hdepth, completeWithin_calls hcall hnew⟩

section Field

variable {owner : PlanOwner} {parent : TypeDecl} {decl : FieldDef} {head : FieldHead} {data : Data ω ε}
  {children : List Selection} {run : Run ε α}

variable (scope owner parent decl head) in
private theorem fieldArguments_calls (run : Run ε α) :
    ((scope.fieldArguments owner parent decl head).run run).2.calls = run.calls := by
  have hplan : Ensures (·.calls = run.calls) (scope.plan owner parent decl head) fun _ => True := by
    unfold plan
    refine Ensures.get.bind fun other hother => ?_
    dsimp only
    split
    · exact .pure trivial
    · exact (Ensures.set hother).bind fun _ _ => .pure trivial
  have harguments : Ensures (·.calls = run.calls) (scope.fieldArguments owner parent decl head) fun _ => True := by
    unfold fieldArguments
    refine hplan.bind fun _ _ => ?_
    dsimp only
    split <;> exact .pure trivial
  exact (harguments run rfl).2

private theorem dispatch_calls {made : ResolverCall}
    (hcall : call ∈ ((scope.dispatch data made).run run).2.calls) : call = made ∨ call ∈ run.calls := by
  cases data with
  | object _ | node _ | value _ => exact List.mem_cons.1 hcall
  | null | list _ | endpoint _ => exact .inr hcall

/-- The resolver of a declared field is called for it, and others for what its value is completed from. -/
private theorem declaredField_calls (hname : head.name ≠ "__typename")
    (hintrospection : scope.introspection? parent head = none) (hdecl : parent.field? head.name = some decl)
    (hcall : call ∈ ((scope.declaredField owner head children shape parent decl data depth).run run).2.calls)
    (hnew : call ∉ run.calls) :
    (call.parent = parent ∧ call.head = head ∧ call.decl = decl ∧ call.depth = depth) ∨
      ∃ type resolved run', scope.Resolves owner parent data depth run head type resolved run' ∧
        call ∈ ((scope.complete shape depth type resolved).run run').2.calls ∧ call ∉ run'.calls := by
  unfold declaredField at hcall
  rw [run_bind] at hcall
  have hkept := fieldArguments_calls scope owner parent decl head run
  cases hargs : (scope.fieldArguments owner parent decl head).run run with
  | mk outcome run' =>
    rw [hargs] at hcall hkept
    obtain ⟨args, errors⟩ := outcome
    have hnew' : call ∉ run'.calls := by rwa [show run'.calls = run.calls from hkept]
    cases args with
    | none => exact absurd hcall hnew'
    | some args =>
      dsimp only at hcall
      rw [run_bind] at hcall
      let made : ResolverCall := { parent, decl, head, args, depth }
      rcases hdispatch : (scope.dispatch data made).run run' with ⟨result, run''⟩
      rw [hdispatch] at hcall
      by_cases hmade : call = made
      · exact .inl ⟨hmade ▸ rfl, hmade ▸ rfl, hmade ▸ rfl, hmade ▸ rfl⟩
      have hnew'' : call ∉ run''.calls := fun h => by
        have hdispatched : call ∈ ((scope.dispatch data made).run run').2.calls := by rwa [hdispatch]
        exact (dispatch_calls hdispatched).elim hmade hnew'
      cases result with
      | error e => exact absurd hcall hnew''
      | ok resolved =>
        dsimp only at hcall
        split at hcall
        · exact absurd hcall hnew''
        · next hcapture =>
          refine .inr ⟨decl.type, _, run'', .resolver hname hintrospection hdecl hargs hdispatch ?_, hcall, hnew''⟩
          exact fun hroot endpoint hendpoint => hcapture endpoint hendpoint hroot

/-- The resolver of a field is called for the field, and others for what its value is completed from. -/
private theorem field_calls
    (hcall : call ∈ ((scope.field owner head children shape parent data depth).run run).2.calls)
    (hnew : call ∉ run.calls) :
    (call.parent = parent ∧ call.head = head ∧ parent.field? head.name = some call.decl ∧ call.depth = depth) ∨
      ∃ type resolved run', scope.Resolves owner parent data depth run head type resolved run' ∧
        call ∈ ((scope.complete shape depth type resolved).run run').2.calls ∧ call ∉ run'.calls := by
  unfold field at hcall
  by_cases hname : head.name = "__typename"
  · rw [if_pos hname] at hcall
    exact absurd hcall hnew
  rw [if_neg hname] at hcall
  cases hintrospection : scope.introspection? parent head with
  | some provided =>
    rw [hintrospection] at hcall
    cases provided with
    | error fault => exact absurd hcall hnew
    | ok provided => exact .inr ⟨provided.2, provided.1, run, .introspection hname hintrospection, hcall, hnew⟩
  | none =>
    rw [hintrospection] at hcall
    dsimp only at hcall
    cases hdecl : parent.field? head.name with
    | none =>
      rw [hdecl] at hcall
      exact absurd hcall hnew
    | some decl =>
      rw [hdecl] at hcall
      rcases declaredField_calls hname hintrospection hdecl hcall hnew with ⟨hparent, hhead, rfl, hdepth⟩ | hbelow
      · exact .inl ⟨hparent, hhead, rfl, hdepth⟩
      · exact .inr hbelow

end Field

/-- Resolvers are called for fields of selection sets that are nested in the one that is executed. -/
theorem Frame.calls_nest (scope : Scope ω ε α) (frame : Frame ω ε α) :
    ∀ call ∈ ((frame.execution scope).run frame.run).2.calls,
      call ∈ frame.run.calls ∨ ∃ level frame', scope.Nests frame level frame' ∧ frame'.Makes scope call := by
  induction frame using scope.executes_wellFounded.induction with
  | h frame ih =>
  intro call hcall
  -- what is called for a selection set that is executed for this one
  have hbelow {path : List PathSegment} {inner : Frame ω ε α} (hexecutes : scope.Executes frame path inner)
      (hinner : call ∈ ((inner.execution scope).run inner.run).2.calls) (hnew : call ∉ inner.run.calls) :
      ∃ level frame', scope.Nests frame level frame' ∧ frame'.Makes scope call := by
    obtain ⟨level, frame', hnests, hmakes⟩ := (ih inner ⟨path, hexecutes⟩ call hinner).resolve_left hnew
    obtain ⟨level, hnests⟩ := hnests.head hexecutes
    exact ⟨level, frame', hnests, hmakes⟩
  refine or_iff_not_imp_left.2 fun hnew => ?_
  unfold Frame.execution at hcall
  cases hselections : frame.selections with
  | nil =>
    rw [hselections, select] at hcall
    exact absurd hcall hnew
  | cons selection rest =>
    rw [hselections, select] at hcall
    cases homission : scope.omission? selection.directives with
    | some warnings =>
      rw [homission] at hcall
      exact hbelow (.omitted hselections homission) hcall hnew
    | none =>
      rw [homission] at hcall
      by_cases hfirst : call ∉ (frame.first scope selection).2.calls
      · exact hbelow (.rest hselections homission) hcall hfirst
      rw [not_not] at hfirst
      unfold Frame.first at hfirst
      cases selection with
      | field head children =>
        rw [selectOne] at hfirst
        rcases field_calls hfirst hnew with ⟨hparent, rfl, hdecl, hdepth⟩ | ⟨type, resolved, run', hresolves, hcalled⟩
        · exact ⟨0, frame, .start, ⟨children, rest, hselections⟩, homission, hparent, hdecl, hdepth⟩
        · obtain ⟨hdepth, path, target, data, run'', hcompletes, hshaped, hnot⟩ := complete_calls hcalled.1 hcalled.2
          exact hbelow (.field hselections homission hdepth hresolves hcompletes) hshaped hnot
      | inline condition directives pos children =>
        rw [selectOne] at hfirst
        by_cases happlies : condition.all (scope.applies · frame.type) = true
        · rw [if_pos happlies] at hfirst
          exact hbelow (.inline hselections homission happlies) hfirst hnew
        · rw [if_neg happlies] at hfirst
          exact absurd hfirst hnew
      | spread name directives pos =>
        rw [selectOne, expand_eq] at hfirst
        cases hfragment : Members.get? name frame.left with
        | none =>
          rw [hfragment] at hfirst
          exact absurd hfirst hnew
        | some fragment =>
          rw [hfragment] at hfirst
          dsimp only [Option.map_some] at hfirst
          by_cases happlies : scope.applies fragment.condition frame.type = true
          · rw [if_pos happlies] at hfirst
            exact hbelow (.spread hselections homission hfragment happlies) hfirst hnew
          · rw [if_neg happlies] at hfirst
            exact absurd hfirst hnew

/-! ### Fields without depth -/

/-- The data that a field of an object finds, if any, and the errors about that. -/
inductive Finds (scope : Scope ω ε α) (owner : PlanOwner) (parent : TypeDecl) (data : Data ω ε) (depth : Nat)
    (run : Run ε α) (head : FieldHead) : Option (Data ω ε) → List Error → Prop
  | introspection {found : Data ω ε} {type : TypeRef}
      (hintrospection : scope.introspection? parent head = some (.ok (found, type))) :
      Finds scope owner parent data depth run head (some found) []
  | unavailable {fault : ExecutionFault} (hintrospection : scope.introspection? parent head = some (.error fault)) :
      Finds scope owner parent data depth run head none [.ofFault fault]
  | unarguable {decl : FieldDef} {errors : List Error} {run' : Run ε α}
      (hintrospection : scope.introspection? parent head = none) (hdecl : parent.field? head.name = some decl)
      (hargs : (scope.fieldArguments owner parent decl head).run run = ((none, errors), run')) :
      Finds scope owner parent data depth run head none errors
  | unresolved {decl : FieldDef} {args : Arguments} {errors : List Error} {e : Error} {run' run'' : Run ε α}
      (hintrospection : scope.introspection? parent head = none) (hdecl : parent.field? head.name = some decl)
      (hargs : (scope.fieldArguments owner parent decl head).run run = ((some args, errors), run'))
      (hresolved : (scope.dispatch data { parent, decl, head, args, depth }).run run' = (.error e, run'')) :
      Finds scope owner parent data depth run head none (errors ++ [e])
  | resolved {decl : FieldDef} {args : Arguments} {errors : List Error} {found : Data ω ε} {run' run'' : Run ε α}
      (hintrospection : scope.introspection? parent head = none) (hdecl : parent.field? head.name = some decl)
      (hargs : (scope.fieldArguments owner parent decl head).run run = ((some args, errors), run'))
      (hresolved : (scope.dispatch data { parent, decl, head, args, depth }).run run' = (.ok found, run'')) :
      Finds scope owner parent data depth run head (some found) errors

/-- The value of a field for which no depth is left is what it found, as it is. There are no errors but those about
finding it. -/
private theorem field_raw {owner : PlanOwner} {parent : TypeDecl} {head : FieldHead} (children : List Selection)
    (shape : Shape ω ε α) (data : Data ω ε) (run : Run ε α) (hname : head.name ≠ "__typename")
    (hfield : scope.introspection? parent head ≠ none ∨ parent.field? head.name ≠ none) :
    ∃ found errors, scope.Finds owner parent data 0 run head found errors ∧
      ((scope.field owner head children shape parent data 0).run run).1 =
        (some (found.elim .null Data.raw), errors) := by
  unfold field
  rw [if_neg hname]
  cases hintrospection : scope.introspection? parent head with
  | some provided =>
    cases provided with
    | error fault => exact ⟨none, _, .unavailable hintrospection, rfl⟩
    | ok provided => exact ⟨some provided.1, [], .introspection hintrospection, rfl⟩
  | none =>
    dsimp only
    obtain ⟨decl, hdecl⟩ := Option.ne_none_iff_exists'.1 (hfield.resolve_left (not_not.2 hintrospection))
    rw [hdecl]
    dsimp only
    rw [run_bind]
    unfold declaredField
    rw [run_bind]
    rcases hargs : (scope.fieldArguments owner parent decl head).run run with ⟨⟨args, errors⟩, run'⟩
    cases args with
    | none => exact ⟨none, errors, .unarguable hintrospection hdecl hargs, rfl⟩
    | some args =>
      dsimp only
      rw [run_bind]
      rcases hdispatch : (scope.dispatch data { parent, decl, head, args, depth := 0 }).run run' with ⟨result, run''⟩
      cases result with
      | error e => exact ⟨none, _, .unresolved hintrospection hdecl hargs hdispatch, rfl⟩
      | ok found =>
        refine ⟨some found, errors, .resolved hintrospection hdecl hargs hdispatch, ?_⟩
        dsimp only
        split
        · rfl
        · exact congrArg (Prod.mk _) (List.append_nil errors)

/-- So it is with the first field of a selection set. -/
theorem Frame.first_raw {head : FieldHead} (children : List Selection) (hdepth : frame.depth = 0)
    (hname : head.name ≠ "__typename")
    (hfield : scope.introspection? frame.type head ≠ none ∨ frame.type.field? head.name ≠ none) :
    ∃ found errors, scope.Finds frame.owner frame.type frame.data 0 frame.run head found errors ∧
      (frame.first scope (.field head children)).1 =
        (mergeEntry frame.entries head.key (found.elim .null Data.raw), errors.map (.prefixed (.key head.key))) := by
  obtain ⟨found, errors, hfinds, hvalue⟩ :=
    field_raw children (frame.below scope children) frame.data frame.run hname hfield
  refine ⟨found, errors, hfinds, ?_⟩
  unfold below at hvalue
  unfold first
  rw [selectOne, hdepth, run_bind, hvalue]
  rfl

/-! ### Keeping to a depth -/

/-- Objects are shaped only where there is depth left, with one less. -/
private theorem complete_congr {shape' : Shape ω ε α}
    (hshape : ∀ below, below + 1 = depth → ∀ target data, shape target data below = shape' target data below)
    (type : TypeRef) (data : Data ω ε) :
    scope.complete shape depth type data = scope.complete shape' depth type data := by
  unfold complete
  by_cases hdepth : depth = 0
  · rw [if_pos hdepth, if_pos hdepth]
  rw [if_neg hdepth, if_neg hdepth]
  have hbelow : ∀ target data, shape target data (depth - 1) = shape' target data (depth - 1) := hshape _ (by omega)
  have hnamed (name : String) (data : Data ω ε) :
      scope.completeNamed shape depth name data = scope.completeNamed shape' depth name data := by
    unfold completeNamed
    simp only [hbelow]
  induction type generalizing data with
  | named name => exact hnamed name data
  | unresolved name pos => exact hnamed name data
  | nonNull inner ih =>
    unfold completeWithin
    rw [ih]
  | list item ih =>
    unfold completeWithin
    rw [funext ih]

/-- What is executed for selection sets at a level keeps to a depth that is left from level zero on. -/
structure KeepsTo (scope : Scope ω ε α) (starts : Frame ω ε α → Prop) (first limit : Nat) (calls : List ResolverCall) :
    Prop where
  /-- Depth is taken for the objects in the value of a field only where some is left. -/
  taken : ∀ depth (shape shape' : Shape ω ε α),
    (∀ below, below + 1 = depth → ∀ target data, shape target data below = shape' target data below) →
      ∀ type data, scope.complete shape depth type data = scope.complete shape' depth type data
  left : ∀ start level frame, starts start → scope.Nests start level frame → frame.depth + (first + level) = limit
  calls : ∀ call ∈ calls, ∃ start level frame, starts start ∧ scope.Nests start level frame ∧ frame.Makes scope call ∧
    first + level ≤ limit
  raw : ∀ start level frame head children rest, starts start → scope.Nests start level frame → first + level = limit →
    frame.selections = .field head children :: rest → scope.omission? head.directives = none →
      head.name ≠ "__typename" → (scope.introspection? frame.type head ≠ none ∨ frame.type.field? head.name ≠ none) →
        ∃ found errors, scope.Finds frame.owner frame.type frame.data 0 frame.run head found errors ∧
          (frame.first scope (.field head children)).1 =
            (mergeEntry frame.entries head.key (found.elim .null Data.raw), errors.map (.prefixed (.key head.key)))

/-- It is enough that the selection sets at the level have the depth that is left there, and are what calls of resolvers
are made for. -/
private theorem keepsTo_of_starts {starts : Frame ω ε α → Prop} {first limit : Nat} {calls : List ResolverCall}
    (hstarts : ∀ start, starts start → start.depth + first = limit)
    (hcalls : ∀ call ∈ calls, ∃ start, starts start ∧ call ∈ ((start.execution scope).run start.run).2.calls ∧
      call ∉ start.run.calls) : scope.KeepsTo starts first limit calls := by
  have hleft (start : Frame ω ε α) (level : Nat) (frame : Frame ω ε α) (hstart : starts start)
      (hnests : scope.Nests start level frame) : frame.depth + (first + level) = limit := by
    have hbelow := hnests.depth_left
    have habove := hstarts start hstart
    omega
  refine ⟨fun _ _ _ => complete_congr, hleft, fun call hcall => ?_, ?_⟩
  · obtain ⟨start, hstart, hcalled, hnew⟩ := hcalls call hcall
    obtain ⟨level, frame, hnests, hmakes⟩ := (start.calls_nest scope call hcalled).resolve_left hnew
    have hlimit := hleft start level frame hstart hnests
    exact ⟨start, level, frame, hstart, hnests, hmakes, by omega⟩
  · intro start level frame head children rest hstart hnests hlimit _ _ hname hfield
    have hdepth := hleft start level frame hstart hnests
    exact Frame.first_raw children (by omega) hname hfield

end Scope

namespace Service

variable (service : Service ω ε α)

/-- What the payload of an event for a subscription is completed in. -/
def eventScope (sub : Subscription ε) : Scope ω ε α :=
  { service, document := sub.document, copy := sub.copy, shared := sub.copy, variableValues := sub.variableValues }

/-- What the objects in a payload are shaped to. -/
def eventShape (sub : Subscription ε) : Scope.Shape ω ε α := fun type data depth =>
  (service.eventScope sub).selections (.subscription sub.id) sub.children type data depth []

/-- What is selected on an object in a payload, when it is. -/
def EventStart (sub : Subscription ε) (payload : Data ω ε) (runtime : Runtime ε α) (start : Scope.Frame ω ε α) : Prop :=
  service.maxDepth ≠ 0 ∧ ∃ path type data run,
    (service.eventScope sub).CompletesObject (service.eventShape sub) service.maxDepth sub.type payload { runtime } path
      type data run ∧
    start =
      { left := sub.document.fragments, entered := [], owner := .subscription sub.id, selections := sub.children, type,
        data, depth := service.maxDepth - 1, entries := [], run }

private theorem perform_keepsTo (document : Document) (copy : Nat) (operation : Operation) (type : TypeDecl)
    (variableValues : List (String × Value)) (runtime : Runtime ε α) :
    (service.scope document copy runtime.fresh.1 operation variableValues).KeepsTo
      (· = service.start document operation type runtime) 0 service.maxDepth
      (service.perform document copy operation type variableValues runtime).2.calls :=
  Scope.keepsTo_of_starts (fun _ hstart => hstart ▸ rfl) fun _ hcall => ⟨_, rfl, hcall, List.not_mem_nil⟩

private theorem payload_keepsTo (sub : Subscription ε) (payload : Data ω ε) (runtime : Runtime ε α) :
    (service.eventScope sub).KeepsTo (service.EventStart sub payload runtime) 1 service.maxDepth
      (((service.eventScope sub).complete (service.eventShape sub) service.maxDepth sub.type payload).run
        { runtime }).2.calls := by
  refine Scope.keepsTo_of_starts ?_ fun call hcall => ?_
  · rintro start ⟨hdepth, path, type, data, run, -, rfl⟩
    dsimp only
    omega
  · obtain ⟨hdepth, path, type, data, run, hcompletes, hcalled, hnew⟩ := Scope.complete_calls hcall List.not_mem_nil
    exact ⟨_, ⟨hdepth, path, type, data, run, hcompletes, rfl⟩, hcalled, hnew⟩

/-- Executing an operation and completing the payload of an event keep to the depth of the service. The fields of the
operation are at level zero, and so is the field that was subscribed to. No resolver is called below the level of the
depth, and fields at that level have the data that they find as their values. -/
theorem keeps_to_depth :
    (∀ document copy name supplied runtime,
      let response := (service.execute document copy name supplied runtime).1
      (∃ errors, service.prepare document name supplied = .error errors ∧ response = .failed errors) ∨
        ∃ operation type variableValues,
          service.prepare document name supplied = .ok (operation, type, variableValues) ∧
          let performed := service.perform document copy operation type variableValues runtime
          response.data = .object performed.1.1 ∧
          (service.scope document copy runtime.fresh.1 operation variableValues).KeepsTo
            (· = service.start document operation type runtime) 0 service.maxDepth performed.2.calls) ∧
    ∀ sub payload runtime,
      let completed :=
        ((service.eventScope sub).complete (service.eventShape sub) service.maxDepth sub.type payload).run { runtime }
      (service.eventResponse sub payload runtime).1 =
        { data := .object [(sub.head.key, completed.1.1)]
          errors := completed.1.2.map (.prefixed (.key sub.head.key)) } ∧
      (service.maxDepth = 0 → completed = ((payload.raw, []), { runtime })) ∧
      (service.eventScope sub).KeepsTo (service.EventStart sub payload runtime) 1 service.maxDepth
        completed.2.calls := by
  refine ⟨fun document copy name supplied runtime => ?_, fun sub payload runtime => ?_⟩
  · intro response
    cases hprepare : service.prepare document name supplied with
    | error errors =>
      refine .inl ⟨errors, rfl, ?_⟩
      simp only [response, execute, hprepare]
    | ok prepared =>
      obtain ⟨operation, type, variableValues⟩ := prepared
      refine .inr ⟨operation, type, variableValues, rfl, ?_, service.perform_keepsTo _ _ _ _ _ _⟩
      simp only [response, execute, hprepare, run]
      split <;> rfl
  · refine ⟨rfl, fun hdepth => ?_, service.payload_keepsTo sub payload runtime⟩
    unfold Scope.complete
    rw [if_pos hdepth]
    rfl

/-- A service with a link that has itself as the next one, and two levels below the root. -/
private def links : Service Unit Unit Unit where
  schema :=
    { types :=
        [{ name := "String", builtin := true, body := .scalar .string },
          { name := "Query", body := .object { fields := [{ name := "link", type := .list (.named "Link") }] } },
          { name := "Link", body := .object { fields := [{ name := "name", type := .named "String" },
                                                         { name := "next", type := .nonNull (.named "Link") }] } }] }
  root _ := .object ()
  maxDepth := 2
  host :=
    { typeName _ := "Link", implementation? _ := none, items? _ := none, untyped := .plain
      resolve _ head _ runtime :=
        if head.name = "name" then (.ok (.value (.string "loop")), runtime)
        else if head.name = "next" then (.ok (.object ()), runtime)
        else (.ok (.list [.object ()]), runtime)
      accepts _ _ := true, send _ _ runtime := (.ok (), runtime), dismiss _ runtime := runtime }

/-- What is read from `{link{name ...{next{...N}}}}fragment N on Link{name next{name}}`. -/
private def linkRequest : Document where
  operations :=
    [{ kind := .query, name := "", pos := ⟨1, 1⟩
       selections :=
         [.field { name := "link", pos := ⟨1, 2⟩ }
           [.field { name := "name", pos := ⟨1, 7⟩ } [],
             .inline none [] ⟨1, 12⟩ [.field { name := "next", pos := ⟨1, 16⟩ } [.spread "N" [] ⟨1, 21⟩]]]] }]
  fragments :=
    [{ name := "N", condition := "Link", pos := ⟨1, 29⟩
       selections :=
         [.field { name := "name", pos := ⟨1, 48⟩ } [],
           .field { name := "next", pos := ⟨1, 53⟩ } [.field { name := "name", pos := ⟨1, 58⟩ } []]] }]

/-- A subscription of a link, for which the next one is selected. -/
private def linkSubscription : Subscription Unit where
  id := 1
  endpoint := ()
  document := linkRequest
  copy := 0
  head := { name := "link", pos := ⟨1, 14⟩ }
  children := [.field { name := "next", pos := ⟨1, 19⟩ } [.spread "N" [] ⟨1, 24⟩]]
  type := .named "Link"
  variableValues := []

/-- The next link of the last one is not completed: it is no error that it is null. -/
theorem links_keep_to_depth :
    let response := (links.execute linkRequest 0 none [] { app := () }).1
    let event := (links.eventResponse linkSubscription (.object ()) { app := () }).1
    let last : Value := .object [("name", .string "loop"), ("next", .null)]
    (response.data = .object [("link", .list [.object [("name", .string "loop"), ("next", last)]])] ∧
      response.errors.isEmpty = true ∧ event.data = .object [("link", .object [("next", last)])] ∧
      event.errors.isEmpty = true) ∧
      ((∃ errors, links.prepare linkRequest none [] = .error errors ∧ response = .failed errors) ∨
        ∃ operation type variableValues,
          links.prepare linkRequest none [] = .ok (operation, type, variableValues) ∧
          let performed := links.perform linkRequest 0 operation type variableValues { app := () }
          response.data = .object performed.1.1 ∧
          (links.scope linkRequest 0 0 operation variableValues).KeepsTo
            (· = links.start linkRequest operation type { app := () }) 0 2 performed.2.calls) ∧
      let completed := ((links.eventScope linkSubscription).complete (links.eventShape linkSubscription) 2
        linkSubscription.type (.object ())).run { runtime := { app := () } }
      (completed.2.calls.map fun call => (call.head.name, call.depth)) = [("next", 0), ("name", 0), ("next", 1)] ∧
        (links.eventScope linkSubscription).KeepsTo
          (links.EventStart linkSubscription (.object ()) { app := () }) 1 2 completed.2.calls :=
  ⟨⟨by cbv, by cbv, by cbv, by cbv⟩, (links.keeps_to_depth).1 linkRequest 0 none [] { app := () }, by cbv,
    (links.keeps_to_depth.2 linkSubscription (.object ()) { app := () }).2.2⟩

end Service

end GraphQL
