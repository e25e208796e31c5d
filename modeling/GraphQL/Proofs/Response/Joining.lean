import GraphQL.Proofs.Execution.Calls
import GraphQL.Proofs.Execution.Keyed
import Mathlib

/-!
# Fields that are selected twice

Two selections of a field on the same object, with the same key and the same arguments, can be joined to one. Where the
type of the field is no list, the one selects what the two select together: their objects are merged entry by entry.
Lists are not merged, so where the type is a list only the selection set of the later field counts. `Scope.Joins` relates
a selection set to one in which such pairs are joined, at any depth, and `Service.resolve_joined` says that the data of
the response does not change.

What two fields select together has to be mergeable: selections under the same key must be of the same field with the
same arguments. Otherwise the value that comes last depends on what is merged first.
-/

namespace GraphQL

/-- The directives are the same, though in other places. -/
def DirectiveUse.Same (uses uses' : List DirectiveUse) : Prop :=
  uses.map (fun use => (use.name, use.args)) = uses'.map fun use => (use.name, use.args)

namespace Scope

variable {ω ε α : Type}

/-! ### Joining fields -/

/-- On an object of type `parent`, the fields have different keys or are the same; and so it is with what they
select below. -/
inductive Mergeable (scope : Scope ω ε α) : TypeDecl → CollectedField → CollectedField → Prop
  | intro {parent : TypeDecl} {field field' : CollectedField}
      (same : field.key = field'.key → field.head.Same field'.head)
      (below : field.key = field'.key → ∀ target, scope.Below parent field.head target →
        ∀ f ∈ scope.collected target field.left field.children,
          ∀ f' ∈ scope.collected target field'.left field'.children, Mergeable scope target f f') :
      Mergeable scope parent field field'

/-- There may be objects of type `target` in the value of a field of an object of one of the types. -/
def BelowAny (scope : Scope ω ε α) (parents : TypeDecl → Prop) (head : FieldHead) (target : TypeDecl) : Prop :=
  ∃ parent, parents parent ∧ scope.Below parent head target

/-- What a field keeps of two selection sets below it, on objects of the given types. -/
inductive Keeps (scope : Scope ω ε α) (parents : TypeDecl → Prop) (head : FieldHead) (children more : List Selection) :
    List Selection → Prop
  | both (htype : ∀ parent type, parents parent → scope.fieldType? parent head = some type → type.isListed = false)
      (hmerge : ∀ target left, scope.BelowAny parents head target → left.Sublist scope.document.fragments →
        (scope.collected target left (children ++ more)).Pairwise (scope.Mergeable target)) :
      Keeps scope parents head children more (children ++ more)
  | last (htype : ∀ parent type, parents parent → scope.fieldType? parent head = some type → type.isListed = true) :
      Keeps scope parents head children more more

/-- Nothing is selected under the key on objects of the given types. -/
def Avoids (scope : Scope ω ε α) (parents : TypeDecl → Prop) (key : String) (selections : List Selection) : Prop :=
  ∀ parent left, parents parent → left.Sublist scope.document.fragments →
    ∀ field ∈ scope.collected parent left selections, field.key ≠ key

/-- The second selection set is the first with fields joined, for objects of the given types. Places do not matter. -/
inductive Joins (scope : Scope ω ε α) : (TypeDecl → Prop) → List Selection → List Selection → Prop
  | nil {parents : TypeDecl → Prop} : Joins scope parents [] []
  | field {parents : TypeDecl → Prop} {head head' : FieldHead} {children children' rest rest' : List Selection}
      (hhead : head.Same head') (hdirectives : DirectiveUse.Same head.directives head'.directives)
      (hchildren : Joins scope (scope.BelowAny parents head) children children')
      (hrest : Joins scope parents rest rest') :
      Joins scope parents (.field head children :: rest) (.field head' children' :: rest')
  | inline {parents : TypeDecl → Prop} {condition : Option String} {directives directives' : List DirectiveUse}
      {pos pos' : Pos} {children children' rest rest' : List Selection}
      (hdirectives : DirectiveUse.Same directives directives')
      (hchildren : Joins scope (fun type => parents type ∧ condition.all (scope.applies · type) = true) children children')
      (hrest : Joins scope parents rest rest') :
      Joins scope parents (.inline condition directives pos children :: rest)
        (.inline condition directives' pos' children' :: rest')
  | spread {parents : TypeDecl → Prop} {name : String} {directives directives' : List DirectiveUse} {pos pos' : Pos}
      {rest rest' : List Selection} (hdirectives : DirectiveUse.Same directives directives')
      (hrest : Joins scope parents rest rest') :
      Joins scope parents (.spread name directives pos :: rest) (.spread name directives' pos' :: rest')
  | join {parents : TypeDecl → Prop} {first second joined : FieldHead}
      {children more kept joinedChildren middle middle' rest rest' : List Selection}
      (hfirst : first.directives = []) (hsecond : second.directives = []) (hjoined : joined.directives = [])
      (hsame : first.Same second) (hsame' : first.Same joined) (hkept : scope.Keeps parents first children more kept)
      (hmiddle : scope.Avoids parents first.key middle)
      (hchildren : Joins scope (scope.BelowAny parents first) kept joinedChildren)
      (hmiddles : Joins scope parents middle middle') (hrest : Joins scope parents rest rest') :
      Joins scope parents (.field first children :: (middle ++ .field second more :: rest))
        (.field joined joinedChildren :: (middle' ++ rest'))

/-- The fragments have the same names and conditions, and selection sets with fields joined. -/
def FragmentsJoin (scope : Scope ω ε α) (left left' : List Fragment) : Prop :=
  ∀ name, Option.Rel
    (fun fragment fragment' => fragment.condition = fragment'.condition ∧
      scope.Joins (fun type => scope.applies fragment.condition type = true) fragment.selections fragment'.selections)
    (Members.get? name left) (Members.get? name left')

variable {scope : Scope ω ε α} {runtime : Runtime ε α} {parents : TypeDecl → Prop} {parent : TypeDecl}
  {data : Data ω ε} {depth : Nat} {left left' : List Fragment}

/-- Directives that are the same leave a selection out, or do not. -/
theorem omission?_same (scope : Scope ω ε α) {uses uses' : List DirectiveUse} (h : DirectiveUse.Same uses uses') :
    (∃ warnings warnings', scope.omission? uses = some warnings ∧ scope.omission? uses' = some warnings') ∨
      scope.omission? uses = none ∧ scope.omission? uses' = none := by
  induction uses generalizing uses' with
  | nil =>
    cases uses' with
    | nil => exact .inr ⟨rfl, rfl⟩
    | cons use' rest' => cases h
  | cons use rest ih =>
    cases uses' with
    | nil => cases h
    | cons use' rest' =>
      unfold DirectiveUse.Same at h
      rw [List.map_cons, List.map_cons, List.cons.injEq, Prod.mk.injEq] at h
      obtain ⟨⟨hname, hargs⟩, hrest⟩ := h
      have hcondition : scope.condition? use = scope.condition? use' := by
        simp only [condition?, DirectiveUse.arg?, hargs]
      unfold omission?
      rw [hname, hcondition]
      split
      · cases scope.condition? use' with
        | none => exact .inl ⟨_, _, rfl, rfl⟩
        | some b =>
          dsimp only
          split
          · exact .inl ⟨_, _, rfl, rfl⟩
          · exact ih hrest
      · exact ih hrest

/-! ### The entry of a joined field -/

theorem entry?_same (hhost : scope.service.host.Deterministic) (hservice : scope.service.Keyed) (hdata : data.Keyed)
    {head head' : FieldHead} (hhead : head.Same head') {entries entries' : TypeDecl → Data ω ε → List (String × Value)}
    (hentries : ∀ target (data : Data ω ε), scope.Below parent head target → data.Keyed →
      entries target data = entries' target data) :
    scope.entry? runtime parent data depth head entries = scope.entry? runtime parent data depth head' entries' := by
  unfold entry?
  rw [← fieldOutline_congr hhost parent data depth hhead, ← hhead.key]
  cases houtline : scope.fieldOutline runtime parent data depth head with
  | none => rfl
  | some outline =>
    have hfill : outline.fill entries = outline.fill entries' :=
      (fieldOutline_all hservice hdata houtline).fill_congr fun target data h => hentries target data h.1 h.2
    rw [Option.map_some, Option.map_some, hfill]

theorem selectedBelow_congr {field field' : CollectedField} (hchildren : field.children = field'.children)
    (hleft : field.left = field'.left) :
    scope.selectedBelow runtime depth field = scope.selectedBelow runtime depth field' := by
  funext target data
  cases depth with
  | zero => rfl
  | succ depth => rw [selectedBelow_succ, selectedBelow_succ, hchildren, hleft]

/-- Fields that can be merged have alike values. -/
theorem Mergeable.alike (hhost : scope.service.host.Deterministic) (hservice : scope.service.Keyed)
    {field field' : CollectedField} (h : scope.Mergeable parent field field') :
    ∀ (depth : Nat) {data : Data ω ε}, data.Keyed → ∀ {key : String} {v w : Value},
      scope.entry? runtime parent data depth field.head (scope.selectedBelow runtime depth field) = some (key, v) →
        scope.entry? runtime parent data depth field'.head (scope.selectedBelow runtime depth field') = some (key, w) →
          v.Alike w := by
  induction h with
  | @intro parent field field' same _ ih =>
    intro depth data hdata key v w hv hw
    obtain ⟨outline, houtline, hv⟩ := Option.map_eq_some_iff.1 hv
    obtain ⟨outline', houtline', hw⟩ := Option.map_eq_some_iff.1 hw
    cases hv
    have hkey : field.key = field'.key := (congrArg Prod.fst hw).symm
    have houtlines : outline = outline' := by
      rw [fieldOutline_congr hhost parent data depth (same hkey), houtline'] at houtline
      exact (Option.some.inj houtline).symm
    have hvalue : outline'.fill (scope.selectedBelow runtime depth field') = w := congrArg Prod.snd hw
    rw [← hvalue, ← houtlines]
    refine (fieldOutline_all hservice hdata houtline).fill_alike fun target data hobject => ?_
    cases depth with
    | zero => exact .object fun key v w hv _ => absurd hv (by simp [selectedBelow])
    | succ depth =>
      rw [selectedBelow_succ, selectedBelow_succ]
      refine Value.alike_mergeEntries fun key v w hv hw => ?_
      obtain ⟨f, hf, hv⟩ := List.mem_filterMap.1 hv
      obtain ⟨f', hf', hw⟩ := List.mem_filterMap.1 hw
      exact ih hkey target hobject.1 f hf f' hf' depth hobject.2 hv hw

/-- What two selection sets give on an object becomes, when it is merged, what they give together. -/
theorem selectedBelow_append (hhost : scope.service.host.Deterministic) (hservice : scope.service.Keyed)
    {target : TypeDecl} (hdata : data.Keyed) (first second : FieldHead) {children more : List Selection}
    (hmerge : (scope.collected target left (children ++ more)).Pairwise (scope.Mergeable target)) :
    let v := Value.object (scope.selectedBelow runtime depth { head := first, children, left } target data)
    let w := Value.object (scope.selectedBelow runtime depth { head := second, children := more, left } target data)
    v.join w =
      .object (scope.selectedBelow runtime depth { head := first, children := children ++ more, left } target data) ∧
      v.Alike w := by
  intro v w
  cases depth with
  | zero =>
    refine ⟨by simp [v, w, Value.join, selectedBelow], .object fun key x y hx _ => ?_⟩
    exact absurd hx (by simp [selectedBelow])
  | succ depth =>
    rw [collected_append, List.pairwise_append] at hmerge
    obtain ⟨-, hmore, hcross⟩ := hmerge
    have halike : EntriesAlike (scope.selected runtime target data depth (scope.collected target left more)) := by
      refine List.pairwise_filterMap.2 (hmore.imp fun {f f'} hmergeable a ha b hb hkey => ?_)
      obtain ⟨key, x⟩ := a
      obtain ⟨key', y⟩ := b
      obtain rfl : key = key' := hkey
      exact hmergeable.alike hhost hservice depth hdata ha hb
    constructor
    · simp only [v, w, selectedBelow_succ, Value.join]
      rw [collected_append, selected_append,
        mergeEntries_append_alike (fun key x hx => selected_keyed hservice hdata hx) halike]
    · refine Value.alike_mergeEntries fun key x y hx hy => ?_
      obtain ⟨f, hf, hx⟩ := List.mem_filterMap.1 hx
      obtain ⟨f', hf', hy⟩ := List.mem_filterMap.1 hy
      exact (hcross f hf f' hf').alike hhost hservice depth hdata hx hy

/-- What two fields give becomes, when it is put under their key, what one field gives that keeps their selection
sets. -/
theorem Keeps.fill_join (hhost : scope.service.host.Deterministic) (hservice : scope.service.Keyed)
    (hparent : parents parent) (hdata : data.Keyed) (hleft : left.Sublist scope.document.fragments)
    {first second : FieldHead} {children more kept : List Selection}
    (h : scope.Keeps parents first children more kept) {outline : Outline ω ε}
    (houtline : scope.fieldOutline runtime parent data depth first = some outline) :
    let v := outline.fill (scope.selectedBelow runtime depth { head := first, children, left })
    let w := outline.fill (scope.selectedBelow runtime depth { head := second, children := more, left })
    v.join w = outline.fill (scope.selectedBelow runtime depth { head := first, children := kept, left }) ∧
      v.Associates w := by
  intro v w
  have hkeyed (field : CollectedField) : (outline.fill (scope.selectedBelow runtime depth field)).Keyed :=
    (fieldOutline_all hservice hdata houtline).fill_keyed fun target data hobject =>
      selectedBelow_keyed hservice depth field target hobject.2
  have hall := fieldOutline_all hservice hdata houtline
  have hlisted := @fieldOutline_listed? _ _ _ scope runtime data depth hservice parent first hdata outline houtline
  cases hall with
  | @value u hu => exact ⟨hu.join_self, hu.alike_self.associates hu hu⟩
  | @object target below hobject =>
    cases h with
    | both htype hmerge =>
      have hmerge := hmerge target left ⟨parent, hparent, hobject.1⟩ hleft
      obtain ⟨hjoin, halike⟩ := @selectedBelow_append _ _ _ _ runtime _ depth _ hhost hservice _ hobject.2 first second
        _ _ hmerge
      exact ⟨hjoin, halike.associates (hkeyed _) (hkeyed _)⟩
    | last htype =>
      obtain ⟨type, hfield, hfalse⟩ := hlisted rfl
      exact absurd (htype parent type hparent hfield) (by simp [hfalse])
  | list _ =>
    cases h with
    | both htype _ =>
      obtain ⟨type, hfield, htrue⟩ := hlisted rfl
      exact absurd (htype parent type hparent hfield) (by simp [htrue])
    | last htype =>
      have hw : w.isObject = false := rfl
      refine ⟨?_, fun u => ?_⟩
      · rw [Value.join_of_not_object hw]
        exact congrArg (Outline.fill · _) (selectedBelow_congr rfl rfl)
      · rw [Value.join_of_not_object hw, Value.join_of_not_object hw, Value.join_of_not_object hw]

/-! ### Joined selection sets -/

theorem FragmentsJoin.erase (h : scope.FragmentsJoin left left') (name : String) :
    scope.FragmentsJoin (Members.erase name left) (Members.erase name left') := by
  intro other
  rw [Members.get?_erase, Members.get?_erase]
  split
  · exact .none
  · exact h other

/-- Joined selection sets give the same entries on the objects in the value of a field. -/
def AgreeBelow (scope : Scope ω ε α) (runtime : Runtime ε α) (depth : Nat) : Prop :=
  ∀ {parents : TypeDecl → Prop} {children children' : List Selection} {left left' : List Fragment},
    scope.Joins parents children children' → scope.FragmentsJoin left left' →
      left.Sublist scope.document.fragments → ∀ (head head' : FieldHead) {target : TypeDecl} {data : Data ω ε},
        parents target → data.Keyed →
          scope.selectedBelow runtime depth { head, children, left } target data =
            scope.selectedBelow runtime depth { head := head', children := children', left := left' } target data

private theorem selected_field (head : FieldHead) (children : List Selection) (hhead : head.directives = [])
    (rest : List Selection) :
    scope.selected runtime parent data depth (scope.collected parent left (.field head children :: rest)) =
      (scope.entry? runtime parent data depth head
        (scope.selectedBelow runtime depth { head, children, left })).toList ++
          scope.selected runtime parent data depth (scope.collected parent left rest) := by
  have homission : scope.omission? (Selection.field head children).directives = none := by
    rw [Selection.directives, hhead, omission?]
  rw [collected_cons, collectedOne_field homission, selected_append, selected_singleton]

private theorem avoids_selected {key : String} {middle : List Selection} (h : scope.Avoids parents key middle)
    (hparent : parents parent) (hleft : left.Sublist scope.document.fragments) :
    key ∉ Entries.keys (scope.selected runtime parent data depth (scope.collected parent left middle)) := by
  intro hmem
  obtain ⟨entry, hentry, hkey⟩ := List.mem_map.1 hmem
  obtain ⟨field, hfield, hentry⟩ := List.mem_filterMap.1 hentry
  obtain ⟨outline, -, rfl⟩ := Option.map_eq_some_iff.1 hentry
  exact h parent left hparent hleft field hfield hkey

/-- A selection set in which fields are joined gives the same entries, if those below do. The recursion is on the
fragments that are left. -/
private theorem Joins.mergeEntries_selected (hhost : scope.service.host.Deterministic) (hservice : scope.service.Keyed)
    (hbelow : scope.AgreeBelow runtime depth) {parents : TypeDecl → Prop} {left left' : List Fragment}
    {selections selections' : List Selection} (h : scope.Joins parents selections selections') (hleft : scope.FragmentsJoin left left')
    (hsub : left.Sublist scope.document.fragments) (hparent : parents parent) (hdata : data.Keyed)
    (before : List (String × Value)) :
    mergeEntries before (scope.selected runtime parent data depth (scope.collected parent left selections)) =
      mergeEntries before (scope.selected runtime parent data depth (scope.collected parent left' selections')) := by
  induction h generalizing before with
  | nil => rw [collected, collected]
  | @field parents head head' children children' rest rest' hhead hdirectives hchildren _ _ ih =>
    have hone : scope.selected runtime parent data depth (scope.collectedOne parent left (.field head children)) =
        scope.selected runtime parent data depth (scope.collectedOne parent left' (.field head' children')) := by
      rcases omission?_same scope hdirectives with ⟨_, _, hhere, hthere⟩ | ⟨hhere, hthere⟩
      · rw [collectedOne_omitted hhere, collectedOne_omitted hthere]
      · rw [collectedOne_field hhere, collectedOne_field hthere, selected_singleton, selected_singleton]
        rw [entry?_same hhost hservice hdata hhead fun target data htarget hdata =>
          hbelow hchildren hleft hsub head head' ⟨parent, hparent, htarget⟩ hdata]
    rw [collected_cons, collected_cons, selected_append, selected_append, mergeEntries_append, mergeEntries_append, hone]
    exact ih hparent _
  | @inline parents condition directives directives' pos pos' children children' rest rest' hdirectives _ _ ih ihrest =>
    rw [collected_cons, collected_cons, selected_append, selected_append, mergeEntries_append, mergeEntries_append,
      ihrest hparent]
    rcases omission?_same scope hdirectives with ⟨_, _, hhere, hthere⟩ | ⟨hhere, hthere⟩
    · rw [collectedOne_omitted hhere, collectedOne_omitted hthere]
    · rw [collectedOne_inline hhere, collectedOne_inline hthere]
      split
      · next happlies => rw [ih ⟨hparent, happlies⟩]
      · rfl
  | @spread parents name directives directives' pos pos' rest rest' hdirectives _ ihrest =>
    rw [collected_cons, collected_cons, selected_append, selected_append, mergeEntries_append, mergeEntries_append,
      ihrest hparent]
    rcases omission?_same scope hdirectives with ⟨_, _, hhere, hthere⟩ | ⟨hhere, hthere⟩
    · rw [collectedOne_omitted hhere, collectedOne_omitted hthere]
    · rw [collectedOne_spread hhere, collectedOne_spread hthere]
      have hfragments := hleft name
      cases hfragment : Members.get? name left with
      | none =>
        rw [hfragment] at hfragments
        cases hfragment' : Members.get? name left' with
        | none => rfl
        | some fragment' =>
          rw [hfragment'] at hfragments
          cases hfragments
      | some fragment =>
        rw [hfragment] at hfragments
        cases hfragment' : Members.get? name left' with
        | none =>
          rw [hfragment'] at hfragments
          cases hfragments
        | some fragment' =>
          rw [hfragment'] at hfragments
          obtain ⟨hcondition, hselections⟩ : _ ∧ _ := by
            cases hfragments with
            | some h => exact h
          dsimp only
          rw [← hcondition]
          split
          · next happlies =>
            rw [Joins.mergeEntries_selected hhost hservice hbelow hselections (hleft.erase name)
              (List.filter_sublist.trans hsub) happlies hdata]
          · rfl
  | @join parents first second joined children more kept joinedChildren middle middle' rest rest' hfirst hsecond hjoined
      hsame hsame' hkept hmiddle hchildren _ _ _ ihmiddle ihrest =>
    rw [selected_field first children hfirst, selected_field joined joinedChildren hjoined, collected_append,
      selected_append, selected_field second more hsecond, collected_append, selected_append]
    have hjoined : scope.entry? runtime parent data depth joined
          (scope.selectedBelow runtime depth { head := joined, children := joinedChildren, left := left' }) =
        scope.entry? runtime parent data depth first
          (scope.selectedBelow runtime depth { head := first, children := kept, left }) :=
      (entry?_same hhost hservice hdata hsame' fun target data htarget hdata =>
        hbelow hchildren hleft hsub first joined ⟨parent, hparent, htarget⟩ hdata).symm
    have hkey : first.key = second.key := hsame.key
    have houtlines := @fieldOutline_congr _ _ _ scope runtime hhost parent data depth _ _ hsame
    rw [hjoined]
    unfold entry?
    rw [← houtlines, ← hkey]
    cases houtline : scope.fieldOutline runtime parent data depth first with
    | none =>
      simp only [Option.map_none, Option.toList_none, List.nil_append, mergeEntries_append]
      rw [ihmiddle hparent, ihrest hparent]
    | some outline =>
      obtain ⟨hjoin, hassoc⟩ := @Keeps.fill_join _ _ _ _ runtime _ _ _ _ _ hhost hservice hparent hdata hsub _ second _ _ _ hkept _ houtline
      simp only [Option.map_some, Option.toList_some, List.singleton_append, mergeEntries_append, mergeEntries_cons]
      rw [mergeEntry_contract before (avoids_selected hmiddle hparent hsub) hassoc, hjoin, ihmiddle hparent,
        ihrest hparent]
termination_by left.length
decreasing_by exact Members.length_erase_lt ‹_›

theorem agreeBelow (hhost : scope.service.host.Deterministic) (hservice : scope.service.Keyed) (depth : Nat) :
    scope.AgreeBelow runtime depth := by
  induction depth with
  | zero =>
    intro parents children children' left left' _ _ _ head head' target data _ _
    rfl
  | succ depth ih =>
    intro parents children children' left left' h hleft hsub head head' target data htarget hdata
    rw [selectedBelow_succ, selectedBelow_succ]
    exact h.mergeEntries_selected hhost hservice ih hleft hsub htarget hdata []

end Scope

/-! ### Joined requests -/

/-- The same variables are declared, though in other places. -/
def VariableDef.Same (decls decls' : List VariableDef) : Prop :=
  decls.map (fun decl => (decl.name, decl.type, decl.default)) =
    decls'.map fun decl => (decl.name, decl.type, decl.default)

/-- Members of the same name in two lists whose members correspond. -/
theorem Members.get?_forall₂ {α : Type} [HasName α] {r : α → α → Prop} {members more : List α}
    (h : List.Forall₂ r members more)
    (hr : ∀ a b, r a b → HasName.name a = HasName.name b) (name : String) :
    Option.Rel r (Members.get? name members) (Members.get? name more) := by
  induction h with
  | nil => exact .none
  | @cons a b members more hab _ ih =>
    unfold Members.get? at ih ⊢
    by_cases ha : HasName.name a = name
    · have hb : HasName.name b = name := (hr a b hab).symm.trans ha
      simp only [List.find?_cons, ha, hb, beq_self_eq_true]
      exact .some hab
    · have hb : HasName.name b ≠ name := fun hb => ha ((hr a b hab).trans hb)
      rw [List.find?_cons_of_neg (by simpa using ha), List.find?_cons_of_neg (by simpa using hb)]
      exact ih

namespace Service

variable {ω ε α : Type}

/-- The second operation is the first with fields joined. -/
structure JoinsOperation (service : Service ω ε α) (document : Document) (operation operation' : Operation) : Prop where
  kind : operation.kind = operation'.kind
  name : operation.name = operation'.name
  variableDefs : VariableDef.Same operation.variableDefs operation'.variableDefs
  selections : ∀ scope : Scope ω ε α, scope.service = service → scope.document = document →
    ∀ type, service.schema.rootType? operation.kind = some type →
      scope.Joins (· = type) operation.selections operation'.selections

/-- The second document is the first with fields joined, whatever the values of the variables are. -/
structure JoinsDocument (service : Service ω ε α) (document document' : Document) : Prop where
  operations : List.Forall₂ (service.JoinsOperation document) document.operations document'.operations
  fragments : ∀ scope : Scope ω ε α, scope.service = service → scope.document = document →
    scope.FragmentsJoin document.fragments document'.fragments

variable {service : Service ω ε α} {document document' : Document}

private theorem values_same (schema : Schema) (supplied : List (String × Value)) {decls decls' : List VariableDef}
    (h : VariableDef.Same decls decls') :
    (VariableDef.values schema supplied decls).1 = (VariableDef.values schema supplied decls').1 ∧
      ((VariableDef.values schema supplied decls).2 = [] ↔ (VariableDef.values schema supplied decls').2 = []) := by
  induction decls generalizing decls' with
  | nil =>
    cases decls' with
    | nil => exact ⟨rfl, Iff.rfl⟩
    | cons decl' rest' => cases h
  | cons decl rest ih =>
    cases decls' with
    | nil => cases h
    | cons decl' rest' =>
      unfold VariableDef.Same at h
      rw [List.map_cons, List.map_cons, List.cons.injEq, Prod.mk.injEq, Prod.mk.injEq] at h
      obtain ⟨⟨hname, htype, hdefault⟩, hrest⟩ := h
      obtain ⟨hvalues, herrors⟩ := ih hrest
      have hvalue : decl.value? schema supplied = decl'.value? schema supplied := by
        unfold VariableDef.value?
        rw [hname, htype, hdefault]
      unfold VariableDef.values
      rw [hvalue]
      cases decl'.value? schema supplied with
      | error fault => exact ⟨hvalues, by simp⟩
      | ok v =>
        cases v with
        | none => exact ⟨hvalues, herrors⟩
        | some v =>
          refine ⟨?_, herrors⟩
          dsimp only
          rw [hname, hvalues]

/-- The same operation is found, or none is. -/
private theorem operation?_joins (h : service.JoinsDocument document document') (name : Option String) :
    (∃ fault fault', document.operation? name = .error fault ∧ document'.operation? name = .error fault') ∨
      ∃ operation operation', document.operation? name = .ok operation ∧ document'.operation? name = .ok operation' ∧
        service.JoinsOperation document operation operation' := by
  have hoperations := h.operations
  unfold Document.operation?
  cases name with
  | some name =>
    have hget := Members.get?_forall₂ hoperations (fun operation operation' h => h.name) name
    dsimp only
    revert hget
    cases Members.get? name document.operations with
    | none =>
      cases Members.get? name document'.operations with
      | none => exact fun _ => .inl ⟨_, _, rfl, rfl⟩
      | some operation' => exact fun hget => by cases hget
    | some operation =>
      cases Members.get? name document'.operations with
      | none => exact fun hget => by cases hget
      | some operation' =>
        intro hget
        cases hget with
        | some h => exact .inr ⟨operation, operation', rfl, rfl, h⟩
  | none =>
    revert hoperations
    generalize document.operations = operations
    generalize document'.operations = operations'
    intro hoperations
    cases hoperations with
    | nil => exact .inl ⟨_, _, rfl, rfl⟩
    | cons hfirst hrest =>
      cases hrest with
      | nil => exact .inr ⟨_, _, rfl, rfl, hfirst⟩
      | cons _ _ => exact .inl ⟨_, _, rfl, rfl⟩

/-- The same operation is prepared with the same variables, or none is. -/
private theorem prepare_joins (h : service.JoinsDocument document document') (name : Option String)
    (supplied : List (String × Value)) :
    (∃ errors errors', service.prepare document name supplied = .error errors ∧
        service.prepare document' name supplied = .error errors') ∨
      ∃ operation operation' type variableValues,
        service.prepare document name supplied = .ok (operation, type, variableValues) ∧
          service.prepare document' name supplied = .ok (operation', type, variableValues) ∧
            service.JoinsOperation document operation operation' ∧
              service.schema.rootType? operation.kind = some type := by
  unfold prepare
  rcases operation?_joins h name with ⟨fault, fault', hhere, hthere⟩ | ⟨operation, operation', hhere, hthere, hjoins⟩
  · rw [hhere, hthere]
    exact .inl ⟨_, _, rfl, rfl⟩
  · rw [hhere, hthere]
    dsimp only
    rw [← hjoins.kind]
    obtain ⟨hvalues, herrors⟩ := values_same service.schema supplied hjoins.variableDefs
    generalize VariableDef.values service.schema supplied operation.variableDefs = result at hvalues herrors
    generalize VariableDef.values service.schema supplied operation'.variableDefs = result' at hvalues herrors
    obtain ⟨variableValues, errors⟩ := result
    obtain ⟨variableValues', errors'⟩ := result'
    obtain rfl : variableValues = variableValues' := hvalues
    cases errors with
    | cons error errors =>
      cases errors' with
      | nil => exact absurd (herrors.2 rfl) (by simp)
      | cons error' errors' => exact .inl ⟨_, _, rfl, rfl⟩
    | nil =>
      obtain rfl : errors' = [] := herrors.1 rfl
      cases htype : service.schema.rootType? operation.kind with
      | none => exact .inl ⟨_, _, rfl, rfl⟩
      | some type => exact .inr ⟨operation, operation', type, variableValues, rfl, rfl, hjoins, htype⟩

private theorem run_data (copy : Nat) (operation : Operation) (type : TypeDecl)
    (variableValues : List (String × Value)) (runtime : Runtime ε α) :
    (service.run document copy operation type variableValues runtime).1.data =
      .object (service.perform document copy operation type variableValues runtime).1.1 := by
  unfold run
  dsimp only
  split <;> rfl

/-- Joining fields in a request does not change the data of the response. -/
theorem resolve_joined (hhost : service.host.Discreet) (hsame : service.host.Deterministic) (hservice : service.Keyed)
    {runtime : Runtime ε α} (hruntime : runtime.Numbered) {source source' : List UInt8}
    (hdocument : service.schema.request? source = .ok document)
    (hdocument' : service.schema.request? source' = .ok document') (h : service.JoinsDocument document document')
    (name : Option String) (supplied : List (String × Value)) :
    (service.resolve source' name supplied runtime).1.data = (service.resolve source name supplied runtime).1.data := by
  unfold resolve
  rw [hdocument, hdocument']
  show (service.execute document' runtime.next name supplied runtime.fresh.2).1.data =
    (service.execute document runtime.next name supplied runtime.fresh.2).1.data
  unfold execute
  rcases prepare_joins h name supplied with ⟨errors, errors', hhere, hthere⟩ |
    ⟨operation, operation', type, variableValues, hhere, hthere, hjoins, htype⟩
  · rw [hhere, hthere]
    rfl
  · rw [hhere, hthere]
    show (service.run document' runtime.next operation' type variableValues runtime.fresh.2).1.data =
      (service.run document runtime.next operation type variableValues runtime.fresh.2).1.data
    rw [run_data, run_data]
    obtain ⟨hoperation, hparent⟩ := prepare_spec hhere
    obtain ⟨hoperation', _⟩ := prepare_spec hthere
    have hperform := (@perform_tracks _ _ _ service document operation type variableValues runtime hhost hruntime
      (Schema.request?_placed hdocument) hoperation hparent).1 hsame
    have hperform' := (@perform_tracks _ _ _ service document' operation' type variableValues runtime hhost hruntime
      (Schema.request?_placed hdocument') hoperation' hparent).1 hsame
    have hscope : service.scope document' runtime.next runtime.fresh.2.next operation' variableValues =
        (service.scope document runtime.next runtime.fresh.2.next operation variableValues).withDocument document' := by
      unfold scope Scope.withDocument
      rw [hjoins.kind]
    rw [hperform, hperform', hscope, Scope.collected_document, Scope.selected_document, ← hjoins.kind]
    have hjoins := hjoins.selections
      (service.scope document runtime.next runtime.fresh.2.next operation variableValues) rfl rfl type htype
    have hfragments := h.fragments
      (service.scope document runtime.next runtime.fresh.2.next operation variableValues) rfl rfl
    refine congrArg Value.object (hjoins.mergeEntries_selected hsame hservice ?_ hfragments ?_ rfl ?_ []).symm
    · exact Scope.agreeBelow hsame hservice _
    · exact List.Sublist.refl _
    · exact hservice.root _

/-- The types of a service with a song. -/
private def songType : TypeDecl where
  name := "Song"
  body := .object { fields := [{ name := "title", type := .named "String" }, { name := "year", type := .named "Int" }] }

private def songQuery : TypeDecl where
  name := "Query"
  body := .object { fields := [{ name := "song", type := .named "Song" }] }

private def songs : Service Empty Empty Unit where
  schema := { types :=
    [{ name := "String", body := .scalar .string }, { name := "Int", body := .scalar .int }, songType, songQuery] }
  root _ := .value (.object [("song", .object [("title", .string "Jennifer"), ("year", .int 2017)])])
  host :=
    { typeName := nofun, implementation? := nofun, resolve := nofun, items? := nofun, untyped := .plain,
      accepts := nofun, send := nofun, dismiss := nofun }

/-- What is read from `{song{title}song{year}}`. -/
private def songTwice : Operation where
  kind := .query
  name := ""
  selections :=
    [.field { name := "song", pos := ⟨1, 2⟩ } [.field { name := "title", pos := ⟨1, 7⟩ } []],
      .field { name := "song", pos := ⟨1, 13⟩ } [.field { name := "year", pos := ⟨1, 18⟩ } []]]
  pos := ⟨1, 1⟩

/-- What is read from `{song{title year}}`. -/
private def songOnce : Operation where
  kind := .query
  name := ""
  selections :=
    [.field { name := "song", pos := ⟨1, 2⟩ }
      [.field { name := "title", pos := ⟨1, 7⟩ } [], .field { name := "year", pos := ⟨1, 13⟩ } []]]
  pos := ⟨1, 1⟩

private theorem songTwice_request :
    songs.schema.request? "{song{title}song{year}}".toUTF8.toList = .ok { operations := [songTwice], fragments := [] } := by
  have hbytes : "{song{title}song{year}}".toUTF8.toList =
      [123, 115, 111, 110, 103, 123, 116, 105, 116, 108, 101, 125, 115, 111, 110, 103, 123, 121, 101, 97, 114, 125,
        125] := by decide +kernel
  rw [hbytes]
  cbv

private theorem songOnce_request :
    songs.schema.request? "{song{title year}}".toUTF8.toList = .ok { operations := [songOnce], fragments := [] } := by
  have hbytes : "{song{title year}}".toUTF8.toList =
      [123, 115, 111, 110, 103, 123, 116, 105, 116, 108, 101, 32, 121, 101, 97, 114, 125, 125] := by decide +kernel
  rw [hbytes]
  cbv

private theorem songs_deterministic : songs.host.Deterministic where
  object := fun o => o.elim
  untyped := by
    intro v head head' args _ hname
    show (v.readField head.name).mapError _ = (v.readField head'.name).mapError _
    rw [hname]

private theorem songs_keyed : songs.Keyed where
  schema := by
    refine ⟨fun decl hdecl => ?_, fun decl hdecl => absurd hdecl (by simp [songs])⟩
    have hnone : decl.directives = [] ∧ ∀ part ∈ decl.parts, part.Keyed := by
      simp only [songs, songType, songQuery, List.mem_cons, List.not_mem_nil, or_false] at hdecl
      rcases hdecl with rfl | rfl | rfl | rfl <;>
        simp [TypeDecl.parts, SchemaNode.Keyed, DirectiveUse.AllKeyed]
    exact ⟨fun use huse => absurd huse (by simp [hnone.1]), hnone.2⟩
  root := by
    intro kind
    have htitle := Value.keyed_string "Jennifer"
    have hyear : (Value.int 2017).Keyed := .plain rfl rfl
    refine .value (.object (by decide) fun key v hv => ?_)
    obtain ⟨rfl, rfl⟩ : key = "song" ∧ v = _ := by simpa using hv
    refine .object (by decide) fun key v hv => ?_
    obtain ⟨rfl, rfl⟩ | ⟨rfl, rfl⟩ : key = "title" ∧ v = _ ∨ key = "year" ∧ v = _ := by simpa using hv
    · exact htitle
    · exact hyear
  object := fun o => o.elim
  items := fun o => o.elim
  untyped := fun v head args data => UntypedResolver.plain_resolve_keyed
  untypedItems := fun v items data => UntypedResolver.plain_items_keyed

private theorem songs_joins :
    songs.JoinsDocument { operations := [songTwice], fragments := [] } { operations := [songOnce], fragments := [] } where
  operations := by
    refine .cons ⟨rfl, rfl, rfl, fun scope hservice hdocument type htype => ?_⟩ .nil
    have hquery : songQuery = type := Option.some.inj (show songs.schema.rootType? .query = some type from htype)
    show scope.Joins _ (.field _ _ :: ([] ++ .field _ _ :: [])) (.field _ _ :: ([] ++ []))
    refine .join rfl rfl rfl ⟨rfl, rfl, fun _ => rfl⟩ ⟨rfl, rfl, fun _ => rfl⟩ (.both ?_ ?_) ?_ ?_ .nil .nil
    · intro parent declared hparent hdeclared
      obtain rfl : parent = songQuery := hparent.trans hquery.symm
      have hnamed : declared = .named "Song" := by
        simpa [Scope.fieldType?, songQuery, TypeDecl.field?, TypeDecl.fields?, Members.get?, HasName.name, eq_comm]
          using hdeclared
      rw [hnamed]
      rfl
    · intro target left _ _
      have hcollected : scope.collected target left
            ([.field { name := "title", pos := ⟨1, 7⟩ } []] ++ [.field { name := "year", pos := ⟨1, 18⟩ } []]) =
          [{ head := { name := "title", pos := ⟨1, 7⟩ }, children := [], left },
            { head := { name := "year", pos := ⟨1, 18⟩ }, children := [], left }] := by
        simp [Scope.collected, Scope.omission?, Selection.directives]
      rw [hcollected, List.pairwise_pair]
      have hkeys : ("title" : String) ≠ "year" := by decide
      exact .intro (fun h => absurd h hkeys) fun h => absurd h hkeys
    · exact fun parent left _ _ field hfield => absurd hfield (by simp [Scope.collected])
    · refine .field ⟨rfl, rfl, fun _ => rfl⟩ rfl .nil (.field ⟨rfl, rfl, fun _ => rfl⟩ rfl .nil .nil)
  fragments := fun scope _ _ name => .none

theorem songs_joined :
    (songs.resolve "{song{title year}}".toUTF8.toList none [] { app := () }).1.data =
        .object [("song", .object [("title", .string "Jennifer"), ("year", .int 2017)])] ∧
      (songs.resolve "{song{title year}}".toUTF8.toList none [] { app := () }).1.data =
        (songs.resolve "{song{title}song{year}}".toUTF8.toList none [] { app := () }).1.data := by
  refine ⟨?_, resolve_joined (fun o => o.elim) songs_deterministic songs_keyed (Runtime.numbered_start ())
    songTwice_request songOnce_request songs_joins none []⟩
  have hresolve : songs.resolve "{song{title year}}".toUTF8.toList none [] { app := () } =
      songs.execute { operations := [songOnce], fragments := [] } 0 none [] ({ app := () } : Runtime Empty Unit).fresh.2 := by
    unfold resolve
    rw [songOnce_request]
    rfl
  rw [hresolve]
  cbv

end Service

end GraphQL
