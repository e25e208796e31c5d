import GraphQL.Execution.Operation
import GraphQL.Proofs.Keyed

/-!
# The fragments of a request

A request is made of the definitions in its text (`Document.MadeOf`). All fragments that it spreads are among them, and
so they are when the request is brought into normal form (`Schema.request?_closed`). What holds of selections follows by
`Selection.entering` from what holds of the selections of the fragments that they spread, since no fragment is entered
within itself.
-/

namespace GraphQL

/-! ### Entering fragments -/

/-- Induction on selections, into the fragments `left` that they spread. A fragment is not left while it is entered. -/
@[elab_as_elim]
theorem Selection.entering {motive : List Fragment → List Selection → Prop} (nil : ∀ left, motive left [])
    (field : ∀ left head children rest, motive left children → motive left rest →
      motive left (.field head children :: rest))
    (inline : ∀ left condition directives pos children rest, motive left children → motive left rest →
      motive left (.inline condition directives pos children :: rest))
    (missing : ∀ left name directives pos rest, Members.get? name left = none → motive left rest →
      motive left (.spread name directives pos :: rest))
    (found : ∀ left name directives pos rest fragment, Members.get? name left = some fragment →
      motive (Members.erase name left) fragment.selections → motive left rest →
        motive left (.spread name directives pos :: rest))
    (left : List Fragment) (selections : List Selection) : motive left selections := by
  match selections with
  | [] => exact nil left
  | selection :: rest =>
    have hrest := entering nil field inline missing found left rest
    cases hselection : selection with
    | field head children =>
      exact field left head children rest (entering nil field inline missing found left children) hrest
    | inline condition directives pos children =>
      exact inline left condition directives pos children rest
        (entering nil field inline missing found left children) hrest
    | spread name directives pos =>
      cases hfragment : Members.get? name left with
      | none => exact missing left name directives pos rest hfragment hrest
      | some fragment =>
        exact found left name directives pos rest fragment hfragment
          (entering nil field inline missing found (Members.erase name left) fragment.selections) hrest
termination_by (left.length, sizeOf selections)
decreasing_by
  all_goals first
    | exact Prod.Lex.left _ _ (Members.length_erase_lt ‹_›)
    | (apply Prod.Lex.right
       simp only [*, List.cons.sizeOf_spec, Selection.field.sizeOf_spec, Selection.inline.sizeOf_spec]
       omega)

/-! ### Documents of definitions -/

/-- What a document is made of: its operations and fragments are among the definitions, and it has all fragments that
these mention. -/
structure Document.MadeOf (document : Document) (definitions : List Definition) : Prop where
  operations : ∀ operation ∈ document.operations, .operation operation ∈ definitions
  fragments : ∀ fragment ∈ document.fragments, .fragment fragment ∈ definitions
  names : Members.names document.fragments = Entries.keys (Definition.fragmentNames definitions)

namespace Definition

variable {definitions : List Definition}

private theorem mem_operations {operation : Operation} (h : operation ∈ definitions.filterMap operation?) :
    .operation operation ∈ definitions := by
  obtain ⟨definition, hdefinition, hsome⟩ := List.mem_filterMap.1 h
  cases definition with
  | operation op =>
    cases hsome
    exact hdefinition
  | fragment frag => cases hsome

private theorem mem_fragments {fragment : Fragment} (h : fragment ∈ definitions.filterMap fragment?) :
    .fragment fragment ∈ definitions := by
  obtain ⟨definition, hdefinition, hsome⟩ := List.mem_filterMap.1 h
  cases definition with
  | operation op => cases hsome
  | fragment frag =>
    cases hsome
    exact hdefinition

/-- Names that are listed already stay listed. -/
private theorem mem_keys_mentioned {name : String} (mentions : List (String × Pos)) :
    ∀ names : List (String × Pos), name ∈ Entries.keys names ∨ name ∈ Entries.keys mentions →
      name ∈ Entries.keys (mentions.foldl
        (fun names mention => if Entries.contains mention.1 names then names else names ++ [mention]) names) := by
  induction mentions with
  | nil => exact fun names h => h.resolve_right (by simp [Entries.keys])
  | cons mention rest ih =>
    intro names h
    rw [List.foldl_cons]
    refine ih _ ?_
    have hcases : name ∈ Entries.keys names ∨ name = mention.1 ∨ name ∈ Entries.keys rest :=
      h.imp_right List.mem_cons.1
    by_cases hcontains : Entries.contains mention.1 names = true
    · rw [if_pos hcontains]
      rcases hcases with hname | rfl | hname
      · exact .inl hname
      · refine .inl (Classical.not_not.1 fun hnot => ?_)
        rw [Entries.contains, Entries.get?_eq_none_iff.2 hnot] at hcontains
        cases hcontains
      · exact .inr hname
    · rw [if_neg hcontains, Entries.keys_append]
      rcases hcases with hname | rfl | hname
      · exact .inl (List.mem_append_left _ hname)
      · exact .inl (List.mem_append_right _ (List.mem_singleton.2 rfl))
      · exact .inr hname

/-- All fragments that are mentioned are listed. -/
theorem mem_keys_fragmentNames {definition : Definition} (hdefinition : definition ∈ definitions)
    {mention : String × Pos} (hmention : mention ∈ definition.mentions) :
    mention.1 ∈ Entries.keys (fragmentNames definitions) :=
  mem_keys_mentioned _ [] (.inr (List.mem_map_of_mem (List.mem_flatMap.2 ⟨definition, hdefinition, hmention⟩)))

/-- The fragments of the given names, if all of them are found. -/
private theorem mapM_fragments {find : String × Pos → Except SyntaxError Fragment}
    (hfind : ∀ mention fragment, find mention = .ok fragment →
      Members.get? mention.1 (definitions.filterMap fragment?) = some fragment) (mentions : List (String × Pos)) :
    ∀ {fragments : List Fragment}, mentions.mapM find = .ok fragments →
      (∀ fragment ∈ fragments, .fragment fragment ∈ definitions) ∧
        Members.names fragments = Entries.keys mentions := by
  induction mentions with
  | nil =>
    intro fragments h
    cases h
    exact ⟨fun _ h => absurd h (by simp), rfl⟩
  | cons mention rest ih =>
    intro fragments h
    rw [List.mapM_cons] at h
    cases hmention : find mention with
    | error e =>
      rw [hmention] at h
      cases h
    | ok fragment =>
      cases hrest : rest.mapM find with
      | error e =>
        rw [hmention, hrest] at h
        cases h
      | ok others =>
        rw [hmention, hrest] at h
        cases h
        have hfound := hfind mention fragment hmention
        obtain ⟨hothers, hnames⟩ := ih hrest
        refine ⟨List.forall_mem_cons.2 ⟨mem_fragments (Members.mem_of_get? hfound), hothers⟩, ?_⟩
        exact congr (congrArg List.cons (Members.name_of_get? hfound)) hnames

end Definition

namespace Document

theorem madeOf_ofDefinitions {definitions : List Definition} {document : Document}
    (h : ofDefinitions definitions = .ok document) : document.MadeOf definitions := by
  have hmade {find : String × Pos → Except SyntaxError Fragment} {fragments : List Fragment}
      (hfind : ∀ mention fragment, find mention = .ok fragment →
        Members.get? mention.1 (definitions.filterMap Definition.fragment?) = some fragment)
      (h : (Definition.fragmentNames definitions).mapM find = .ok fragments) :
      MadeOf { operations := definitions.filterMap Definition.operation?, fragments } definitions :=
    have hfragments := Definition.mapM_fragments hfind _ h
    ⟨fun _ => Definition.mem_operations, hfragments.1, hfragments.2⟩
  unfold ofDefinitions at h
  simp only [bind, Except.bind] at h
  split at h
  · split at h
    · cases h
    · split at h
      · cases h
      · next hmapM =>
        cases h
        refine hmade (fun mention fragment hfragment => ?_) hmapM
        split at hfragment
        · cases hfragment
          assumption
        · cases hfragment
  · split at h
    · cases h
    · next hmapM =>
      cases h
      refine hmade (fun mention fragment hfragment => ?_) hmapM
      split at hfragment
      · cases hfragment
        assumption
      · cases hfragment

/-! ### Spreads -/

/-- The spreads in all operations and fragments. -/
def spreads (document : Document) : List (String × Pos) :=
  (document.operations.flatMap fun operation => Selection.spreadsOf operation.selections) ++
    document.fragments.flatMap fun fragment => Selection.spreadsOf fragment.selections

/-- All fragments that are spread are there. -/
def Closed (document : Document) : Prop :=
  ∀ mention ∈ document.spreads, Members.contains mention.1 document.fragments = true

theorem MadeOf.closed {document : Document} {definitions : List Definition} (h : document.MadeOf definitions) :
    document.Closed := by
  intro mention hmention
  rw [Members.contains_iff, h.names]
  rcases List.mem_append.1 hmention with hmention | hmention
  · obtain ⟨operation, hoperation, hmention⟩ := List.mem_flatMap.1 hmention
    exact Definition.mem_keys_fragmentNames (h.operations operation hoperation) hmention
  · obtain ⟨fragment, hfragment, hmention⟩ := List.mem_flatMap.1 hmention
    exact Definition.mem_keys_fragmentNames (h.fragments fragment hfragment) (List.mem_append_left _ hmention)

/-- All fragments that a request spreads are in it when it is read. -/
theorem read?_closed {schema : Schema} {source : List UInt8} {document : Document}
    (h : Document.read? schema source = .ok document) : document.Closed := by
  unfold Document.read? at h
  split at h
  · exact (madeOf_ofDefinitions h).closed
  · cases h

end Document

mutual

theorem Selection.spreads_normal (c : Coercion) (selection : Selection) :
    Selection.spreads (c.normalSelection selection) = Selection.spreads selection := by
  cases selection with
  | field head children => rw [Coercion.normalSelection, spreads, spreads, spreadsOf_normal c children]
  | inline condition directives pos children =>
    rw [Coercion.normalSelection, spreads, spreads, spreadsOf_normal c children]
  | spread fragment directives pos => rw [Coercion.normalSelection, spreads, spreads]

theorem Selection.spreadsOf_normal (c : Coercion) (selections : List Selection) :
    Selection.spreadsOf (c.normalSelections selections) = Selection.spreadsOf selections := by
  cases selections with
  | nil => rw [Coercion.normalSelections]
  | cons selection rest =>
    rw [Coercion.normalSelections, spreadsOf, spreadsOf, spreads_normal c selection, spreadsOf_normal c rest]

end

namespace Document

theorem spreads_normal (schema : Schema) (document : Document) :
    (document.normal schema).spreads = document.spreads := by
  have hoperation (operation : Operation) : Selection.spreadsOf (schema.coercion.normalOperation operation).selections =
      Selection.spreadsOf operation.selections := Selection.spreadsOf_normal _ _
  have hfragment (fragment : Fragment) : Selection.spreadsOf (schema.coercion.normalFragment fragment).selections =
      Selection.spreadsOf fragment.selections := Selection.spreadsOf_normal _ _
  unfold spreads normal
  simp only [List.flatMap_map, hoperation, hfragment]

theorem Closed.normal {document : Document} (h : document.Closed) (schema : Schema) :
    (document.normal schema).Closed := by
  intro mention hmention
  rw [spreads_normal] at hmention
  have hcontains : Members.contains mention.1 (document.normal schema).fragments =
      Members.contains mention.1 document.fragments := Members.contains_map fun _ => rfl
  rw [hcontains]
  exact h mention hmention

end Document

namespace Schema

variable {schema : Schema} {source : List UInt8} {document : Document}

/-- A request that is read and valid is the normal form of what was read, with which nothing is wrong. -/
theorem request?_read (h : schema.request? source = .ok document) :
    ∃ read, Document.read? schema source = .ok read ∧ read.faults schema = [] ∧ document = read.normal schema := by
  unfold request? at h
  split at h
  · cases h
  · next read hread =>
    split at h
    · next hfaults =>
      cases h
      exact ⟨read, hread, hfaults, rfl⟩
    · cases h

/-- All fragments that a request spreads are in it when it is read and valid. -/
theorem request?_closed (h : schema.request? source = .ok document) : document.Closed := by
  obtain ⟨read, hread, -, rfl⟩ := request?_read h
  exact (Document.read?_closed hread).normal schema

end Schema

end GraphQL
