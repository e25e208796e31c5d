import GraphQL.Proofs.Request.Inlined

/-!
# The cycles that are reported

Fragments that spread themselves, be it by way of others, are reported when a request is checked, and nothing else is
reported as a cycle (`Document.faults_fragmentCycle_iff`). A report tells the fragments on the way from the smallest one
back to it (`Document.fragmentCycle_spreads`).
-/

namespace GraphQL

/-- The fault is a cycle of fragments. -/
def RequestFault.isFragmentCycle : RequestFault → Bool
  | fragmentCycle .. => true
  | _ => false

namespace Schema

variable (schema : Schema)

/-! ### Other faults -/

private theorem requestUsesFaults_otherwise (location : DirectiveLocation) (allowVariables : Bool)
    (uses : List DirectiveUse) :
    ∀ e ∈ schema.requestUsesFaults location allowVariables uses, e.cause.isFragmentCycle = false := by
  intro e he
  obtain ⟨fault, -, rfl⟩ := List.mem_map.1 he
  rfl

private theorem variableFaults_otherwise (decl : VariableDef) :
    ∀ e ∈ schema.variableFaults decl, e.cause.isFragmentCycle = false := by
  have hdefault : ∀ e ∈ schema.variableDefaultFaults decl, e.cause.isFragmentCycle = false := by
    unfold variableDefaultFaults
    split
    · exact nofun
    · split
      · exact List.forall_mem_singleton.2 rfl
      · split
        · exact nofun
        · exact List.forall_mem_singleton.2 rfl
  unfold variableFaults
  refine List.forall_mem_append.2 ⟨schema.requestUsesFaults_otherwise _ _ _, ?_⟩
  split
  · exact List.forall_mem_singleton.2 rfl
  · split
    · exact hdefault
    · exact List.forall_mem_singleton.2 rfl

private theorem conditionFaults_otherwise (condition : Option String) (pos : Pos) :
    ∀ e ∈ schema.conditionFaults condition pos, e.cause.isFragmentCycle = false := by
  unfold conditionFaults
  split
  · exact nofun
  · split
    · exact List.forall_mem_singleton.2 rfl
    · split
      · exact nofun
      · exact List.forall_mem_singleton.2 rfl

mutual

private theorem selectionFaults_otherwise (selection : Selection) :
    ∀ e ∈ schema.selectionFaults selection, e.cause.isFragmentCycle = false := by
  cases selection with
  | field head children =>
    rw [selectionFaults]
    exact List.forall_mem_append.2 ⟨schema.requestUsesFaults_otherwise _ _ _, selectionsFaults_otherwise children⟩
  | inline condition directives pos children =>
    rw [selectionFaults]
    exact List.forall_mem_append.2 ⟨List.forall_mem_append.2
      ⟨schema.conditionFaults_otherwise _ _, schema.requestUsesFaults_otherwise _ _ _⟩,
      selectionsFaults_otherwise children⟩
  | spread name directives pos =>
    rw [selectionFaults]
    exact schema.requestUsesFaults_otherwise _ _ _

private theorem selectionsFaults_otherwise (selections : List Selection) :
    ∀ e ∈ schema.selectionsFaults selections, e.cause.isFragmentCycle = false := by
  cases selections with
  | nil =>
    rw [selectionsFaults]
    exact nofun
  | cons selection rest =>
    rw [selectionsFaults]
    exact List.forall_mem_append.2 ⟨selectionFaults_otherwise selection, selectionsFaults_otherwise rest⟩

end

private theorem operationFaults_otherwise (operation : Operation) :
    ∀ e ∈ schema.operationFaults operation, e.cause.isFragmentCycle = false := by
  unfold operationFaults
  refine List.forall_mem_append.2 ⟨List.forall_mem_append.2 ⟨List.forall_mem_append.2 ⟨?_,
    schema.requestUsesFaults_otherwise _ _ _⟩, fun e he => ?_⟩, schema.selectionsFaults_otherwise _⟩
  · split
    · exact nofun
    · exact List.forall_mem_singleton.2 rfl
  · obtain ⟨decl, -, hdecl⟩ := List.mem_flatMap.1 he
    exact schema.variableFaults_otherwise decl e hdecl

private theorem fragmentFaults_otherwise (fragment : Fragment) :
    ∀ e ∈ schema.fragmentFaults fragment, e.cause.isFragmentCycle = false := by
  unfold fragmentFaults
  refine List.forall_mem_append.2 ⟨List.forall_mem_append.2 ⟨?_, schema.requestUsesFaults_otherwise _ _ _⟩,
    schema.selectionsFaults_otherwise _⟩
  unfold fragmentConditionFaults
  split
  · exact List.forall_mem_singleton.2 rfl
  · split
    · exact nofun
    · exact List.forall_mem_singleton.2 rfl

end Schema

/-! ### Cycles -/

namespace Document

variable {schema : Schema} {document : Document}

/-- The cycles among the faults are what the fragments find. -/
private theorem mem_cycleFaults {e : RequestError} :
    e ∈ document.faults schema ∧ e.cause.isFragmentCycle = true ↔
      e ∈ document.fragments.flatMap document.cycleFaults := by
  unfold faults
  rw [List.mem_append, List.mem_append]
  refine ⟨fun ⟨he, hcycle⟩ => he.resolve_left fun hother => ?_, fun he => ⟨.inr he, ?_⟩⟩
  · refine absurd hcycle (Bool.eq_false_iff.1 ?_)
    rcases hother with he | he
    · obtain ⟨operation, -, he⟩ := List.mem_flatMap.1 he
      exact schema.operationFaults_otherwise operation e he
    · obtain ⟨fragment, -, he⟩ := List.mem_flatMap.1 he
      exact schema.fragmentFaults_otherwise fragment e he
  · obtain ⟨fragment, -, he⟩ := List.mem_flatMap.1 he
    unfold cycleFaults at he
    split at he
    · rw [List.mem_singleton.1 he]
      rfl
    · cases he

private theorem spreads_of_edge {name next : String} (h : Cycle.Edge document.fragmentEdges name next) :
    document.Spreads name next := by
  obtain ⟨⟨⟩, hspreads⟩ := h
  exact hspreads

/-- A reported cycle is what the search from the fragment has found. -/
private theorem returns_of_mem {e : RequestError} (he : e ∈ document.faults schema)
    (hcycle : e.cause.isFragmentCycle = true) :
    ∃ path start, Cycle.Returns document.fragmentEdges start start path ∧
      e.cause = .fragmentCycle (Entries.keys path) start := by
  obtain ⟨fragment, -, he⟩ := List.mem_flatMap.1 (mem_cycleFaults.1 ⟨he, hcycle⟩)
  unfold cycleFaults at he
  split at he
  · next path hpath =>
    obtain rfl := List.mem_singleton.1 he
    exact ⟨path, fragment.name, Cycle.returns_of_find? hpath, rfl⟩
  · cases he

/-- What is reported are the fragments on the way from the smallest one back to it, each of which spreads the next. -/
theorem fragmentCycle_spreads {e : RequestError} (he : e ∈ document.faults schema) {path : List String} {start : String}
    (hcause : e.cause = .fragmentCycle path start) :
    path.head? = some start ∧ List.IsChain document.Spreads (path ++ [start]) ∧ ∀ name ∈ path, start ≤ name := by
  obtain ⟨found, least, hreturns, hfound⟩ := returns_of_mem he (hcause ▸ rfl)
  cases hcause.symm.trans hfound
  refine ⟨hreturns.head, hreturns.chain.imp fun _ _ => spreads_of_edge, fun name hname => ?_⟩
  exact (hreturns.least name hname).elim (fun heq => heq ▸ le_refl _) le_of_lt

/-- A cycle is reported if and only if some fragment spreads itself, directly or by way of others. -/
theorem faults_fragmentCycle_iff :
    (∃ e ∈ document.faults schema, e.cause.isFragmentCycle = true) ↔
      ∃ name, Relation.TransGen document.Spreads name name := by
  constructor
  · rintro ⟨e, he, hcycle⟩
    obtain ⟨path, start, hreturns, -⟩ := returns_of_mem he hcycle
    exact ⟨start, hreturns.transGen.lift id fun _ _ => spreads_of_edge⟩
  · rintro ⟨name, hname⟩
    by_contra hnone
    refine acyclic_of_cycleFaults (List.eq_nil_iff_forall_not_mem.2 fun e he => ?_) name hname
    exact hnone ⟨e, mem_cycleFaults.2 he⟩

end Document

end GraphQL
