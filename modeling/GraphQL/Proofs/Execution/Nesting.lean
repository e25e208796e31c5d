import GraphQL.Execution.Operation
import GraphQL.Proofs.Execution.Collected
import GraphQL.Proofs.Keyed
import Mathlib

/-!
# How selection sets nest

Executing a selection set executes others: what is left of the set, inline fragments, fragments that are spread, and
what is selected on the objects that fields give. `Scope.Executes` says which, exactly as they come, and where the
errors of the inner one appear among those of the outer one.

The selections of fragments are not part of those that spread them, so their size is no measure. What decreases is the
number of fragments that are left (`Scope.executes_wellFounded`), and with a stack of the fragments that were entered
in place of those that are left, the recursion is no deeper than there are fragments (`Scope.expandWithin_eq`). No
fragment is entered twice on the way to a selection set, and a spread that would do so is reported
(`Service.execute_terminates`).
-/

namespace GraphQL

variable {ω ε α : Type}

/-! ### Errors seen from further out -/

/-- The error seen from where `path` leads to it. -/
def Error.under (path : List PathSegment) (e : Error) : Error := { e with path := path ++ e.path }

namespace Error

@[simp]
theorem under_nil (e : Error) : e.under [] = e := rfl

theorem under_cons (segment : PathSegment) (path : List PathSegment) (e : Error) :
    e.under (segment :: path) = (e.under path).prefixed segment := rfl

theorem under_append (path more : List PathSegment) (e : Error) : e.under (path ++ more) = (e.under more).under path := by
  simp [under]

end Error

namespace Scope

/-! ### Objects in completed data -/

/-- Completing data, from the run on, gets to an object of the type `target`: where it is in the data, what data it is
made of, and from which run on. -/
inductive CompletesObject (scope : Scope ω ε α) (shape : Shape ω ε α) (depth : Nat) :
    TypeRef → Data ω ε → Run ε α → List PathSegment → TypeDecl → Data ω ε → Run ε α → Prop
  | object {type : TypeRef} {name : String} {data : Data ω ε} {run : Run ε α} {decl : TypeDecl}
      (hname : type.ownName? = some name) (hdata : data.isNull = false) (hdecl : scope.schema.type? name = some decl)
      (hobject : decl.isObject = true) : CompletesObject scope shape depth type data run [] decl data run
  | abstract {type : TypeRef} {name : String} {data : Data ω ε} {run : Run ε α} {decl concrete : TypeDecl}
      (hname : type.ownName? = some name) (hdata : data.isNull = false) (hdecl : scope.schema.type? name = some decl)
      (habstract : decl.isAbstract = true) (hconcrete : scope.concreteType decl.name data = .ok concrete) :
      CompletesObject scope shape depth type data run [] concrete data run
  | nonNull {inner : TypeRef} {data data' : Data ω ε} {run run' : Run ε α} {path : List PathSegment}
      {target : TypeDecl} (h : CompletesObject scope shape depth inner data run path target data' run') :
      CompletesObject scope shape depth (.nonNull inner) data run path target data' run'
  | item {type : TypeRef} {data item data' : Data ω ε} {run run' : Run ε α} {path : List PathSegment}
      {target : TypeDecl} {before after : List (Except Error (Data ω ε))}
      (hitems : scope.items? (TypeRef.list type).text data = .ok (some (before ++ .ok item :: after)))
      (h : CompletesObject scope shape depth type item ((completeItems (scope.completeWithin shape depth type) 0 before).run run).2
        path target data' run') :
      CompletesObject scope shape depth (.list type) data run (.index before.length :: path) target data' run'

/-- What an execution lists the error among. -/
def Reports {β : Type} (m : Execution ε α (Outcome β)) (run : Run ε α) (e : Error) : Prop := e ∈ (m.run run).1.2

theorem Reports.bind {β γ : Type} {m : Execution ε α β} {f : β → Execution ε α (Outcome γ)} {run : Run ε α} {e : Error}
    (h : Reports (f (m.run run).1) (m.run run).2 e) : Reports (m >>= f) run e := h

variable {scope : Scope ω ε α} {shape : Shape ω ε α} {depth : Nat}

private theorem completeItems_reports {complete : Data ω ε → Execution ε α (Outcome Value)} {item : Data ω ε} {e : Error}
    (before after : List (Except Error (Data ω ε))) (first : Nat) (run : Run ε α)
    (h : Reports (complete item) ((completeItems complete first before).run run).2 e) :
    Reports (completeItems complete first (before ++ .ok item :: after)) run
      (e.prefixed (.index (first + before.length))) := by
  induction before generalizing first run with
  | nil => exact List.mem_append_left _ (List.mem_map_of_mem h)
  | cons head before ih =>
    have hrest := ih (first + 1) ((completeItem complete head).run run).2 h
    rw [Nat.add_assoc, Nat.add_comm 1] at hrest
    exact List.mem_append_right _ hrest

/-- The errors about an object are among those about the data that it is in. -/
theorem CompletesObject.reports {type : TypeRef} {data data' : Data ω ε} {run run' : Run ε α} {path : List PathSegment}
    {target : TypeDecl} (h : scope.CompletesObject shape depth type data run path target data' run') {e : Error}
    (he : Reports (shape target data' (depth - 1)) run' e) :
    Reports (scope.completeWithin shape depth type data) run (e.under path) := by
  have hnamed {type : TypeRef} {name : String} (hname : type.ownName? = some name) :
      scope.completeWithin shape depth type = scope.completeNamed shape depth name := by
    cases type with
    | named _ | unresolved _ _ => cases hname; rfl
    | list _ | nonNull _ => cases hname
  induction h with
  | @object type name data run decl hname hdata hdecl hobject =>
    rw [hnamed hname]
    unfold completeNamed TypeDecl.isObject at *
    rw [hdata, hdecl]
    dsimp only
    cases hbody : decl.body with
    | object body => exact he
    | interface _ | union _ | scalar _ | enum _ | input _ | schema _ => simp [hbody] at hobject
  | @abstract type name data run decl concrete hname hdata hdecl habstract hconcrete =>
    rw [hnamed hname]
    unfold completeNamed TypeDecl.isAbstract at *
    rw [hdata, hdecl]
    dsimp only
    cases hbody : decl.body with
    | interface _ | union _ =>
      dsimp only
      rw [hconcrete]
      exact he
    | object _ | scalar _ | enum _ | input _ | schema _ => simp [hbody] at habstract
  | @nonNull inner data data' run run' path target h ih =>
    have hinner := ih he
    unfold completeWithin
    refine .bind ?_
    dsimp only
    split
    · next hnull =>
      have hnone : ((scope.completeWithin shape depth inner data).run run).1.2 = [] := by
        simpa using (Bool.and_eq_true _ _).mp hnull |>.2
      exact absurd hinner (by rw [Reports, hnone]; exact List.not_mem_nil)
    · exact hinner
  | @item type data item data' run run' path target before after hitems h ih =>
    have hlisted := completeItems_reports before after 0 run (ih he)
    rw [Nat.zero_add] at hlisted
    unfold completeWithin
    rw [hitems]
    exact hlisted

/-! ### Fields -/

/-- The value of a field, from the run on, is completed from the data, of the type and from the run that are given. -/
inductive Resolves (scope : Scope ω ε α) (owner : PlanOwner) (parent : TypeDecl) (data : Data ω ε) (depth : Nat)
    (run : Run ε α) (head : FieldHead) : TypeRef → Data ω ε → Run ε α → Prop
  | introspection {type : TypeRef} {data' : Data ω ε} (hname : head.name ≠ "__typename")
      (h : scope.introspection? parent head = some (.ok (data', type))) :
      Resolves scope owner parent data depth run head type data' run
  | resolver {decl : FieldDef} {args : Arguments} {errors : List Error} {resolved : Data ω ε} {run' run'' : Run ε α}
      (hname : head.name ≠ "__typename") (hintrospection : scope.introspection? parent head = none)
      (hdecl : parent.field? head.name = some decl)
      (hargs : (scope.fieldArguments owner parent decl head).run run = ((some args, errors), run'))
      (hresolved : (scope.dispatch data { parent, decl, head, args, depth }).run run' = (.ok resolved, run''))
      (hkept : (scope.subscribing && depth == scope.service.maxDepth) = true → ∀ endpoint, resolved ≠ .endpoint endpoint) :
      Resolves scope owner parent data depth run head decl.type resolved run''

/-- The errors about what the value of a field is completed from are among those about the field. -/
theorem Resolves.reports {owner : PlanOwner} {parent : TypeDecl} {data data' : Data ω ε} {run run' : Run ε α}
    {head : FieldHead} {type : TypeRef} (h : scope.Resolves owner parent data depth run head type data' run')
    (children : List Selection) {e : Error} (he : Reports (scope.complete shape depth type data') run' e) :
    Reports (scope.field owner head children shape parent data depth) run e := by
  cases h with
  | introspection hname hintrospection =>
    unfold field
    rw [if_neg hname, hintrospection]
    exact he
  | @resolver decl args errors resolved run' run'' hname hintrospection hdecl hargs hresolved hkept =>
    have hdeclared : Reports (scope.declaredField owner head children shape parent decl data depth) run e := by
      unfold declaredField
      refine .bind ?_
      rw [hargs]
      refine .bind ?_
      rw [hresolved]
      dsimp only
      split
      · next endpoint hcapture => exact absurd rfl (hkept hcapture endpoint)
      · exact List.mem_append_right errors he
    unfold field
    rw [if_neg hname, hintrospection]
    dsimp only
    rw [hdecl]
    exact hdeclared

/-! ### Selection sets -/

/-- A selection set that is being executed on an object. -/
structure Frame (ω ε α : Type) where
  /-- The fragments that may be entered. -/
  left : List Fragment
  /-- The names of the fragments that were entered and not left, the last first. -/
  entered : List String
  owner : PlanOwner
  selections : List Selection
  type : TypeDecl
  data : Data ω ε
  depth : Nat
  /-- What the object has so far. -/
  entries : List (String × Value)
  run : Run ε α

/-- What a selection set makes of the object. -/
def Frame.execution (scope : Scope ω ε α) (frame : Frame ω ε α) : Execution ε α (Outcome (List (String × Value))) :=
  scope.select (scope.expand frame.left) frame.owner frame.selections frame.type frame.data frame.depth frame.entries

/-- What the first selection of a selection set makes of the object, and the run after it. -/
def Frame.first (scope : Scope ω ε α) (frame : Frame ω ε α) (selection : Selection) :
    Outcome (List (String × Value)) × Run ε α :=
  (scope.selectOne (scope.expand frame.left) frame.owner selection frame.type frame.data frame.depth frame.entries).run
    frame.run

/-- What the objects in the value of a field are shaped to. -/
def Frame.below (scope : Scope ω ε α) (frame : Frame ω ε α) (children : List Selection) : Shape ω ε α :=
  fun type data depth => scope.select (scope.expand frame.left) frame.owner children type data depth []

/-- Executing a selection set executes another: where the errors of that one appear, and which it is. -/
inductive Executes (scope : Scope ω ε α) : Frame ω ε α → List PathSegment → Frame ω ε α → Prop
  | omitted {frame : Frame ω ε α} {selection : Selection} {rest : List Selection} {warnings : List Error}
      (hselections : frame.selections = selection :: rest)
      (homission : scope.omission? selection.directives = some warnings) :
      Executes scope frame [] { frame with selections := rest }
  | rest {frame : Frame ω ε α} {selection : Selection} {rest : List Selection}
      (hselections : frame.selections = selection :: rest)
      (homission : scope.omission? selection.directives = none) :
      Executes scope frame []
        { frame with
          selections := rest, entries := (frame.first scope selection).1.1, run := (frame.first scope selection).2 }
  | inline {frame : Frame ω ε α} {condition : Option String} {directives : List DirectiveUse} {pos : Pos}
      {children rest : List Selection} (hselections : frame.selections = .inline condition directives pos children :: rest)
      (homission : scope.omission? directives = none)
      (happlies : condition.all (scope.applies · frame.type) = true) :
      Executes scope frame [] { frame with selections := children }
  | spread {frame : Frame ω ε α} {name : String} {directives : List DirectiveUse} {pos : Pos} {rest : List Selection}
      {fragment : Fragment} (hselections : frame.selections = .spread name directives pos :: rest)
      (homission : scope.omission? directives = none) (hfragment : Members.get? name frame.left = some fragment)
      (happlies : scope.applies fragment.condition frame.type = true) :
      Executes scope frame [spreadLabel pos]
        { frame with
          left := Members.erase name frame.left, entered := name :: frame.entered, owner := .fragment name
          selections := fragment.selections }
  | field {frame : Frame ω ε α} {head : FieldHead} {children rest : List Selection} {type : TypeRef}
      {resolved data : Data ω ε} {run run' : Run ε α} {path : List PathSegment} {target : TypeDecl}
      (hselections : frame.selections = .field head children :: rest)
      (homission : scope.omission? head.directives = none) (hdepth : frame.depth ≠ 0)
      (hresolves : scope.Resolves frame.owner frame.type frame.data frame.depth frame.run head type resolved run)
      (hcompletes : scope.CompletesObject (frame.below scope children) frame.depth type resolved run path target data run') :
      Executes scope frame (.key head.key :: path)
        { frame with selections := children, type := target, data, depth := frame.depth - 1, entries := [], run := run' }

/-- The errors of a selection set that is executed are among those of the one that executes it. -/
theorem Executes.reports {frame frame' : Frame ω ε α} {path : List PathSegment} (h : scope.Executes frame path frame')
    {e : Error} (he : Reports (frame'.execution scope) frame'.run e) :
    Reports (frame.execution scope) frame.run (e.under path) := by
  -- the errors of the first selection come first
  have hfirst {selection : Selection} {rest : List Selection} (hselections : frame.selections = selection :: rest)
      (homission : scope.omission? selection.directives = none) {e : Error}
      (he : e ∈ (frame.first scope selection).1.2) : Reports (frame.execution scope) frame.run e := by
    unfold Frame.execution
    rw [hselections, select, homission]
    exact List.mem_append_left _ he
  cases h with
  | @omitted selection rest warnings hselections homission =>
    unfold Frame.execution
    rw [hselections, select, homission]
    exact List.mem_append_right _ he
  | @rest selection rest hselections homission =>
    unfold Frame.execution
    rw [hselections, select, homission]
    exact List.mem_append_right _ he
  | @inline condition directives pos children rest hselections homission happlies =>
    refine hfirst hselections homission ?_
    unfold Frame.first
    rw [selectOne, if_pos happlies]
    exact he
  | @spread name directives pos rest fragment hselections homission hfragment happlies =>
    refine hfirst hselections homission ?_
    unfold Frame.first
    rw [selectOne, expand_eq, hfragment]
    dsimp only [Option.map_some]
    rw [if_pos happlies]
    exact List.mem_map_of_mem he
  | @field head children rest type resolved data run run' path target hselections homission hdepth hresolves hcompletes =>
    refine hfirst hselections homission ?_
    have hcompleted : Reports (scope.complete (frame.below scope children) frame.depth type resolved) run
        (e.under path) := by
      unfold complete
      rw [if_neg hdepth]
      exact hcompletes.reports he
    unfold Frame.first
    rw [selectOne]
    exact List.mem_map_of_mem (hresolves.reports children hcompleted)

/-- Any number of selection sets, one executed by the other. -/
inductive Reaches (scope : Scope ω ε α) (start : Frame ω ε α) : List PathSegment → Frame ω ε α → Prop
  | start : Reaches scope start [] start
  | next {path more : List PathSegment} {frame frame' : Frame ω ε α} (h : Reaches scope start path frame)
      (hexecutes : scope.Executes frame more frame') : Reaches scope start (path ++ more) frame'

theorem Reaches.reports {start frame : Frame ω ε α} {path : List PathSegment} (h : scope.Reaches start path frame)
    {e : Error} (he : Reports (frame.execution scope) frame.run e) :
    Reports (start.execution scope) start.run (e.under path) := by
  induction h generalizing e with
  | start => exact he
  | next _ hexecutes ih =>
    rw [Error.under_append]
    exact ih (hexecutes.reports he)

/-! ### Termination -/

/-- Selection sets do not execute each other without end. -/
theorem executes_wellFounded (scope : Scope ω ε α) :
    WellFounded fun frame' frame : Frame ω ε α => ∃ path, scope.Executes frame path frame' := by
  have hlex : WellFounded (Prod.Lex (· < · : Nat → Nat → Prop) (· < · : Nat → Nat → Prop)) :=
    WellFounded.prod_lex Nat.lt_wfRel.wf Nat.lt_wfRel.wf
  refine Subrelation.wf ?_ (InvImage.wf (fun frame : Frame ω ε α => (frame.left.length, sizeOf frame.selections)) hlex)
  rintro frame' frame ⟨path, h⟩
  have hsmaller {left left' : List Fragment} {selections selections' : List Selection} (hleft : left'.length = left.length)
      (hsize : sizeOf selections' < sizeOf selections) :
      Prod.Lex (· < ·) (· < ·) (left'.length, sizeOf selections') (left.length, sizeOf selections) := by
    rw [hleft]
    exact .right _ hsize
  cases h with
  | omitted hselections _ | rest hselections _ =>
    refine hsmaller rfl ?_
    dsimp only
    rw [hselections, List.cons.sizeOf_spec]
    omega
  | inline hselections _ _ =>
    refine hsmaller rfl ?_
    dsimp only
    rw [hselections, List.cons.sizeOf_spec, Selection.inline.sizeOf_spec]
    omega
  | field hselections _ _ _ _ =>
    refine hsmaller rfl ?_
    dsimp only
    rw [hselections, List.cons.sizeOf_spec, Selection.field.sizeOf_spec]
    omega
  | spread hselections _ hfragment _ => exact .left _ _ (Members.length_erase_lt hfragment)

/-- The fragments that are left are those of the document that were not entered. -/
structure Stacked (document : Document) (left : List Fragment) (entered : List String) : Prop where
  distinct : entered.Nodup
  left : ∀ name, Members.get? name left = if name ∈ entered then none else document.fragment? name

theorem Stacked.start (document : Document) : Stacked document document.fragments [] where
  distinct := List.nodup_nil
  left _ := (if_neg List.not_mem_nil).symm

theorem Stacked.enter {document : Document} {left : List Fragment} {entered : List String} {name : String}
    {fragment : Fragment} (h : Stacked document left entered) (hfragment : Members.get? name left = some fragment) :
    Stacked document (Members.erase name left) (name :: entered) where
  distinct := by
    refine List.nodup_cons.2 ⟨fun hentered => ?_, h.distinct⟩
    rw [h.left, if_pos hentered] at hfragment
    cases hfragment
  left other := by
    rw [Members.get?_erase, h.left]
    by_cases hother : other = name
    · simp [hother]
    · simp [hother]

/-- Selection sets keep account of the fragments that they enter. -/
theorem Reaches.stacked {document : Document} {start frame : Frame ω ε α} {path : List PathSegment}
    (h : scope.Reaches start path frame) (hstart : Stacked document start.left start.entered) :
    Stacked document frame.left frame.entered := by
  induction h with
  | start => exact hstart
  | next _ hexecutes ih =>
    cases hexecutes with
    | omitted _ _ | rest _ _ | inline _ _ _ | field _ _ _ _ _ => exact ih
    | spread _ _ hfragment _ => exact ih.enter hfragment

/-- The selections of a fragment of the document, if it was not entered. The recursion is on no measure, but goes
`tooDeep` when it is nested deeper than the given number. -/
def expandWithin (scope : Scope ω ε α) (tooDeep : Expansion ω ε α) :
    Nat → List String → String → Option (Expansion ω ε α)
  | 0, entered, name =>
    if name ∈ entered then none else (scope.document.fragment? name).map fun _ => tooDeep
  | bound + 1, entered, name =>
    if name ∈ entered then none
    else
      (scope.document.fragment? name).map fun fragment type data depth entries =>
        if scope.applies fragment.condition type then
          scope.select (scope.expandWithin tooDeep bound (name :: entered)) (.fragment name) fragment.selections type data
            depth entries
        else return (entries, [])

/-- The recursion is never deeper than there are fragments. -/
theorem expandWithin_eq (tooDeep : Expansion ω ε α) {bound : Nat} {left : List Fragment} {entered : List String}
    (hstacked : Stacked scope.document left entered) (hbound : left.length ≤ bound) :
    scope.expandWithin tooDeep bound entered = scope.expand left := by
  funext name
  induction bound generalizing left entered name with
  | zero =>
    have hnone : scope.expand left name = none := by
      rw [expand_eq, List.length_eq_zero_iff.1 (Nat.le_zero.1 hbound)]
      rfl
    have hleft := hstacked.left name
    rw [List.length_eq_zero_iff.1 (Nat.le_zero.1 hbound)] at hleft
    rw [hnone, expandWithin]
    split
    · rfl
    · next hentered =>
      rw [if_neg hentered] at hleft
      rw [← hleft]
      rfl
  | succ bound ih =>
    rw [expandWithin, expand_eq, hstacked.left name]
    split
    · rfl
    · next hentered =>
      cases hfragment : scope.document.fragment? name with
      | none => rfl
      | some fragment =>
        have hfound : Members.get? name left = some fragment := by rw [hstacked.left name, if_neg hentered, hfragment]
        have hshorter := Members.length_erase_lt hfound
        have hinner : scope.expandWithin tooDeep bound (name :: entered) = scope.expand (Members.erase name left) :=
          funext fun other => ih (hstacked.enter hfound) (by omega) other
        rw [hinner]

end Scope

namespace Service

/-- The selection set of an operation when its execution begins. -/
def start (service : Service ω ε α) (document : Document) (operation : Operation) (type : TypeDecl)
    (runtime : Runtime ε α) : Scope.Frame ω ε α where
  left := document.fragments
  entered := []
  owner := .operation operation.name
  selections := operation.selections
  type
  data := service.root operation.kind
  depth := service.maxDepth
  entries := []
  run := { runtime := runtime.fresh.2 }

/-- Errors of the execution of an operation are in the response. -/
theorem execute_reports {service : Service ω ε α} {document : Document} {name : Option String}
    {supplied : List (String × Value)} {operation : Operation} {type : TypeDecl}
    {variableValues : List (String × Value)}
    (hprepare : service.prepare document name supplied = .ok (operation, type, variableValues)) (copy : Nat)
    (runtime : Runtime ε α) {e : Error}
    (he : e ∈ (service.perform document copy operation type variableValues runtime).1.2) :
    e ∈ (service.execute document copy name supplied runtime).1.errors := by
  unfold execute
  rw [hprepare]
  show e ∈ (service.run document copy operation type variableValues runtime).1.errors
  unfold run
  generalize service.perform document copy operation type variableValues runtime = result at he
  obtain ⟨⟨entries, errors⟩, run⟩ := result
  dsimp only
  split
  · exact List.mem_append_left _ he
  · exact he

/-- Execution terminates, whatever the document. The response tells that there is nothing to execute, or an operation is
executed. Then the recursion through fragments is no deeper than there are fragments, and selection sets do not execute
each other without end. On the way to a selection set no fragment is entered twice. A spread that would do so is
reported where it stands, and no other spread is: its fragment is executed. -/
theorem execute_terminates (service : Service ω ε α) (document : Document) (copy : Nat) (name : Option String)
    (supplied : List (String × Value)) (runtime : Runtime ε α) :
    let response := (service.execute document copy name supplied runtime).1
    (∃ errors, service.prepare document name supplied = .error errors ∧ response = .failed errors) ∨
      ∃ operation type variableValues,
        service.prepare document name supplied = .ok (operation, type, variableValues) ∧
        let scope := service.scope document copy runtime.fresh.1 operation variableValues
        let start := service.start document operation type runtime
        (∀ tooDeep bound, document.fragments.length ≤ bound →
          (scope.select (scope.expandWithin tooDeep bound []) start.owner start.selections start.type start.data
              start.depth start.entries).run start.run =
            service.perform document copy operation type variableValues runtime) ∧
        (WellFounded fun frame' frame : Scope.Frame ω ε α => ∃ path, scope.Executes frame path frame') ∧
        ∀ path frame, scope.Reaches start path frame →
          frame.entered.Nodup ∧
          ∀ spread directives pos rest, frame.selections = .spread spread directives pos :: rest →
            scope.omission? directives = none →
            (spread ∈ frame.entered → { Error.ofFault (.fragmentCycle spread) with path } ∈ response.errors) ∧
            (spread ∉ frame.entered → ∀ fragment, document.fragment? spread = some fragment →
              scope.applies fragment.condition frame.type = true →
              ∃ inner, scope.Executes frame [Scope.spreadLabel pos] inner ∧ inner.entered = spread :: frame.entered ∧
                inner.selections = fragment.selections) := by
  intro response
  cases hprepare : service.prepare document name supplied with
  | error errors =>
    left
    refine ⟨errors, rfl, ?_⟩
    simp only [response, execute, hprepare]
  | ok prepared =>
    obtain ⟨operation, type, variableValues⟩ := prepared
    refine .inr ⟨operation, type, variableValues, rfl, ?_⟩
    intro scope start
    refine ⟨fun tooDeep bound hbound => ?_, scope.executes_wellFounded, fun path frame hreaches => ?_⟩
    · rw [Scope.expandWithin_eq tooDeep (Scope.Stacked.start document) hbound]
      rfl
    · have hstacked : Scope.Stacked document frame.left frame.entered := hreaches.stacked (.start document)
      refine ⟨hstacked.distinct, fun spread directives pos rest hselections homission => ⟨?_, ?_⟩⟩
      · intro hentered
        have hnone : Members.get? spread frame.left = none := by rw [hstacked.left, if_pos hentered]
        have hcycle : Scope.Reports (frame.execution scope) frame.run (Error.ofFault (.fragmentCycle spread)) := by
          unfold Scope.Frame.execution
          rw [hselections, Scope.select, Selection.directives, homission]
          dsimp only
          rw [Scope.selectOne, Scope.expand_eq, hnone]
          exact List.mem_append_left _ List.mem_cons_self
        have hreported := execute_reports hprepare copy runtime (hreaches.reports hcycle)
        rwa [Error.under, show (Error.ofFault (.fragmentCycle spread)).path = [] from rfl, List.append_nil] at hreported
      · intro hentered fragment hfragment happlies
        have hfound : Members.get? spread frame.left = some fragment := by
          rw [hstacked.left, if_neg hentered, hfragment]
        exact ⟨_, .spread hselections homission hfound happlies, rfl, rfl⟩

/-- A service with a song and its album, which has the song again. -/
private def discs : Service Empty Empty Unit where
  schema :=
    { types :=
        [{ name := "Query", body := .object { fields := [{ name := "song", type := .named "Song" }] } },
          { name := "Song", body := .object { fields := [{ name := "album", type := .named "Album" }] } },
          { name := "Album", body := .object { fields := [{ name := "song", type := .named "Song" }] } }] }
  root _ := .value (.object [("song", .object [("album", .object [("song", .object [])])])])
  host :=
    { typeName := nofun, implementation? := nofun, resolve := nofun, items? := nofun, untyped := .plain,
      accepts := nofun, send := nofun, dismiss := nofun }

/-- What is read from `{song{...S}}fragment S on Song{album{...A}}fragment A on Album{song{...S}}`. -/
private def rounds : Document where
  operations :=
    [{ kind := .query, name := "", pos := ⟨1, 1⟩
       selections := [.field { name := "song", pos := ⟨1, 2⟩ } [.spread "S" [] ⟨1, 7⟩]] }]
  fragments :=
    [{ name := "S", condition := "Song", pos := ⟨1, 13⟩
       selections := [.field { name := "album", pos := ⟨1, 32⟩ } [.spread "A" [] ⟨1, 38⟩]] },
      { name := "A", condition := "Album", pos := ⟨1, 44⟩
        selections := [.field { name := "song", pos := ⟨1, 64⟩ } [.spread "S" [] ⟨1, 69⟩]] }]

theorem rounds_terminate :
    let response := (discs.execute rounds 0 none [] { app := () }).1
    (response.data = .object [("song", .object [("album", .object [("song", .object [])])])] ∧
      response.errors.map (fun e => (e.cause, e.path.length)) = [(.execution (.fragmentCycle "S"), 5)]) ∧
      ((∃ errors, discs.prepare rounds none [] = .error errors ∧ response = .failed errors) ∨
        ∃ operation type variableValues,
          discs.prepare rounds none [] = .ok (operation, type, variableValues) ∧
          let scope := discs.scope rounds 0 0 operation variableValues
          let start := discs.start rounds operation type { app := () }
          (∀ tooDeep bound, rounds.fragments.length ≤ bound →
            (scope.select (scope.expandWithin tooDeep bound []) start.owner start.selections start.type start.data
                start.depth start.entries).run start.run =
              discs.perform rounds 0 operation type variableValues { app := () }) ∧
          (WellFounded fun frame' frame : Scope.Frame Empty Empty Unit => ∃ path, scope.Executes frame path frame') ∧
          ∀ path frame, scope.Reaches start path frame →
            frame.entered.Nodup ∧
            ∀ spread directives pos rest, frame.selections = .spread spread directives pos :: rest →
              scope.omission? directives = none →
              (spread ∈ frame.entered → { Error.ofFault (.fragmentCycle spread) with path } ∈ response.errors) ∧
              (spread ∉ frame.entered → ∀ fragment, rounds.fragment? spread = some fragment →
                scope.applies fragment.condition frame.type = true →
                ∃ inner, scope.Executes frame [Scope.spreadLabel pos] inner ∧ inner.entered = spread :: frame.entered ∧
                  inner.selections = fragment.selections)) :=
  ⟨⟨by cbv, by cbv⟩, execute_terminates discs rounds 0 none [] { app := () }⟩

end Service

end GraphQL
