import GraphQL.Proofs.Cycle
import GraphQL.Proofs.Request.Places
import Mathlib.Logic.Relation

/-!
# Requests without fragments

In the place of a spread there may be an inline fragment with the condition and the selections of the fragment.
`Document.inlined` replaces all spreads in this way. None is left if the fragments do not spread themselves
(`Document.Acyclic.spreadsOf_inlined`), and then what stands for a spread are all selections of the fragment, inlined
(`Document.Acyclic.inlined_spread`).
-/

namespace GraphQL

namespace Selection

/-- The selections with inline fragments for spreads of the fragments `left`, where none is entered twice. -/
def inlined (left : List Fragment) : List Selection → List Selection
  | [] => []
  | .field head children :: rest => .field head (inlined left children) :: inlined left rest
  | .inline condition directives pos children :: rest =>
    .inline condition directives pos (inlined left children) :: inlined left rest
  | .spread name directives pos :: rest =>
    match _found : Members.get? name left with
    | none => .spread name directives pos :: inlined left rest
    | some fragment =>
      .inline (some fragment.condition) directives pos (inlined (Members.erase name left) fragment.selections) ::
        inlined left rest
termination_by selections => (left.length, sizeOf selections)
decreasing_by
  all_goals first
    | exact Prod.Lex.left _ _ (Members.length_erase_lt _found)
    | (apply Prod.Lex.right
       simp only [List.cons.sizeOf_spec, Selection.field.sizeOf_spec, Selection.inline.sizeOf_spec]
       omega)

section Inlined

variable {left : List Fragment} {name : String} {directives : List DirectiveUse} {pos : Pos} {rest : List Selection}

theorem inlined_missing (h : Members.get? name left = none) :
    inlined left (.spread name directives pos :: rest) = .spread name directives pos :: inlined left rest := by
  rw [inlined]
  split
  · rfl
  · next hfound => rw [h] at hfound; cases hfound

theorem inlined_found {fragment : Fragment} (h : Members.get? name left = some fragment) :
    inlined left (.spread name directives pos :: rest) =
      .inline (some fragment.condition) directives pos (inlined (Members.erase name left) fragment.selections) ::
        inlined left rest := by
  rw [inlined]
  split
  · next hfound => rw [h] at hfound; cases hfound
  · next hfound =>
    rw [h] at hfound
    cases hfound
    rfl

end Inlined

/-- The fields of inlined selections come from the selections and from the fragments. -/
theorem headsOf_inlined {head : FieldHead} (left : List Fragment) (selections : List Selection)
    (h : head ∈ headsOf (inlined left selections)) :
    head ∈ headsOf selections ∨ ∃ fragment ∈ left, head ∈ headsOf fragment.selections := by
  induction left, selections using Selection.entering with
  | nil left =>
    rw [inlined] at h
    exact .inl h
  | field left other children rest ihchildren ihrest =>
    rw [inlined, headsOf, heads, List.cons_append, List.mem_cons, List.mem_append] at h
    rcases h with rfl | h | h
    · exact .inl List.mem_cons_self
    · exact (ihchildren h).imp_left fun h => List.mem_append_left _ (List.mem_cons_of_mem _ h)
    · exact (ihrest h).imp_left (List.mem_append_right _)
  | inline left condition directives pos children rest ihchildren ihrest =>
    rw [inlined, headsOf, heads, List.mem_append] at h
    rcases h with h | h
    · exact (ihchildren h).imp_left (List.mem_append_left _)
    · exact (ihrest h).imp_left (List.mem_append_right _)
  | missing left name directives pos rest hfragment ihrest =>
    rw [inlined_missing hfragment, headsOf, heads, List.nil_append] at h
    exact (ihrest h).imp_left (List.mem_append_right _)
  | found left name directives pos rest fragment hfragment ihselections ihrest =>
    rw [inlined_found hfragment, headsOf, heads, List.mem_append] at h
    rcases h with h | h
    · right
      rcases ihselections h with h | ⟨other, hother, h⟩
      · exact ⟨fragment, Members.mem_of_get? hfragment, h⟩
      · exact ⟨other, (List.mem_filter.1 hother).1, h⟩
    · exact (ihrest h).imp_left (List.mem_append_right _)

end Selection

/-- The operation with inline fragments for spreads. -/
def Operation.inlined (fragments : List Fragment) (operation : Operation) : Operation :=
  { operation with selections := Selection.inlined fragments operation.selections }

namespace Document

/-- The request with inline fragments for spreads. -/
def inlined (document : Document) : Document where
  operations := document.operations.map (.inlined document.fragments)
  fragments := []

variable {document : Document}

/-- Inlining brings no new fields. -/
theorem mem_heads_inlined {head : FieldHead} (h : head ∈ document.inlined.heads) : head ∈ document.heads := by
  have hoperations := (List.mem_append.1 h).resolve_right List.not_mem_nil
  obtain ⟨operation, hoperation, hhead⟩ := List.mem_flatMap.1 hoperations
  obtain ⟨original, horiginal, rfl⟩ := List.mem_map.1 hoperation
  rcases Selection.headsOf_inlined _ _ hhead with hhead | ⟨fragment, hfragment, hhead⟩
  · exact List.mem_append_left _ (List.mem_flatMap.2 ⟨original, horiginal, hhead⟩)
  · exact List.mem_append_right _ (List.mem_flatMap.2 ⟨fragment, hfragment, hhead⟩)

theorem Located.inlined (h : document.Located) : document.inlined.Located := fun head hhead head' hhead' =>
  h head (mem_heads_inlined hhead) head' (mem_heads_inlined hhead')

/-! ### Acyclic requests -/

/-- The fragment of the first name spreads the one of the second. -/
def Spreads (document : Document) (name next : String) : Prop := ((), next) ∈ document.fragmentEdges name

theorem spreads_of_mem {name : String} {fragment : Fragment} (h : document.fragment? name = some fragment)
    {mention : String × Pos} (hmention : mention ∈ Selection.spreadsOf fragment.selections) :
    document.Spreads name mention.1 := by
  unfold Spreads fragmentEdges
  rw [h]
  exact List.mem_map.2 ⟨mention, hmention, rfl⟩

/-- No fragment spreads itself, not even by way of others. -/
def Acyclic (document : Document) : Prop := ∀ name, ¬ Relation.TransGen document.Spreads name name

/-- All fragments that spreads get to, one after the other, are among those that are left. -/
def Provides (document : Document) (left : List Fragment) (mentions : List (String × Pos)) : Prop :=
  ∀ mention ∈ mentions, ∀ name, Relation.ReflTransGen document.Spreads mention.1 name →
    Members.get? name left = document.fragment? name ∧ (document.fragment? name).isSome

namespace Provides

variable {left : List Fragment} {mentions more : List (String × Pos)} {name : String} {pos : Pos}
  {fragment : Fragment}

theorem append (h : document.Provides left (mentions ++ more)) :
    document.Provides left mentions ∧ document.Provides left more := List.forall_mem_append.1 h

/-- The fragment that is spread is there. -/
theorem found (h : document.Provides left [(name, pos)]) :
    Members.get? name left = document.fragment? name ∧ (document.fragment? name).isSome :=
  h _ (List.mem_singleton.2 rfl) name .refl

/-- A fragment that does not get back to itself is not missed in it. -/
theorem erase (h : document.Provides left (Selection.spreadsOf fragment.selections)) (hacyclic : document.Acyclic)
    (hfragment : document.fragment? name = some fragment) :
    document.Provides (Members.erase name left) (Selection.spreadsOf fragment.selections) := by
  intro mention hmention other hother
  have hspreads := spreads_of_mem hfragment hmention
  have hne : other ≠ name := fun heq => hacyclic name (Relation.TransGen.head' hspreads (heq ▸ hother))
  rw [Members.get?_erase, if_neg hne]
  exact h mention hmention other hother

/-- Where a fragment is spread, all that it gets to is provided. -/
theorem enter (h : document.Provides left [(name, pos)]) (hacyclic : document.Acyclic)
    (hfragment : document.fragment? name = some fragment) :
    document.Provides (Members.erase name left) (Selection.spreadsOf fragment.selections) := by
  refine erase (fun inner hinner other hother => ?_) hacyclic hfragment
  exact h _ (List.mem_singleton.2 rfl) other (hother.head (spreads_of_mem hfragment hinner))

end Provides

/-- All fragments of a request are provided at its start. -/
theorem Closed.provides (h : document.Closed) {mentions : List (String × Pos)}
    (hmentions : mentions ⊆ document.spreads) : document.Provides document.fragments mentions := by
  intro mention hmention name hname
  refine ⟨rfl, ?_⟩
  have hsome {mention : String × Pos} (hmention : mention ∈ document.spreads) : (document.fragment? mention.1).isSome :=
    Members.get?_isSome.trans (h mention hmention)
  induction hname with
  | refl => exact hsome (hmentions hmention)
  | @tail name next _ hnext _ =>
    unfold Spreads fragmentEdges at hnext
    split at hnext
    · next fragment hfragment =>
      obtain ⟨inner, hinner, heq⟩ := List.mem_map.1 hnext
      have hin : inner ∈ document.spreads := List.mem_append_right _
        (List.mem_flatMap.2 ⟨fragment, Members.mem_of_get? hfragment, hinner⟩)
      obtain rfl : inner.1 = next := congrArg Prod.snd heq
      exact hsome hin
    · cases hnext

namespace Acyclic

/-- It does not matter which fragments are left, as long as those are that selections get to. -/
theorem inlined_congr (h : document.Acyclic) (left left' : List Fragment) (selections : List Selection)
    (hleft : document.Provides left (Selection.spreadsOf selections))
    (hleft' : document.Provides left' (Selection.spreadsOf selections)) :
    Selection.inlined left selections = Selection.inlined left' selections := by
  induction left, selections using Selection.entering generalizing left' with
  | nil left => rw [Selection.inlined, Selection.inlined]
  | field left head children rest ihchildren ihrest
  | inline left condition directives pos children rest ihchildren ihrest =>
    rw [Selection.spreadsOf, Selection.spreads] at hleft hleft'
    rw [Selection.inlined, Selection.inlined, ihchildren left' hleft.append.1 hleft'.append.1,
      ihrest left' hleft.append.2 hleft'.append.2]
  | missing left name directives pos rest hmissing ihrest =>
    rw [Selection.spreadsOf, Selection.spreads] at hleft
    obtain ⟨hfound, hsome⟩ := hleft.append.1.found
    rw [← hfound, hmissing] at hsome
    cases hsome
  | found left name directives pos rest fragment hfound ihselections ihrest =>
    rw [Selection.spreadsOf, Selection.spreads] at hleft hleft'
    have hfragment := hleft.append.1.found.1.symm.trans hfound
    have hfound' := hleft'.append.1.found.1.trans hfragment
    rw [Selection.inlined_found hfound, Selection.inlined_found hfound', ihrest left' hleft.append.2 hleft'.append.2,
      ihselections _ (hleft.append.1.enter h hfragment) (hleft'.append.1.enter h hfragment)]

/-- What stands for a spread is an inline fragment with all selections of the fragment, inlined. -/
theorem inlined_spread (h : document.Acyclic) (hclosed : document.Closed) {name : String} {fragment : Fragment}
    (hfragment : document.fragment? name = some fragment) (directives : List DirectiveUse) (pos : Pos)
    (rest : List Selection) :
    Selection.inlined document.fragments (.spread name directives pos :: rest) =
      .inline (some fragment.condition) directives pos (Selection.inlined document.fragments fragment.selections) ::
        Selection.inlined document.fragments rest := by
  have hin : Selection.spreadsOf fragment.selections ⊆ document.spreads := fun mention hmention =>
    List.mem_append_right _ (List.mem_flatMap.2 ⟨fragment, Members.mem_of_get? hfragment, hmention⟩)
  have hprovides := hclosed.provides hin
  have herased := hprovides.erase h hfragment
  rw [Selection.inlined_found hfragment, h.inlined_congr _ _ fragment.selections herased hprovides]

end Acyclic

end Document

/-! ### Valid requests are acyclic -/

namespace Document

theorem fragmentEdges_normal (schema : Schema) (document : Document) :
    (document.normal schema).fragmentEdges = document.fragmentEdges := by
  funext name
  have hget : (document.normal schema).fragment? name =
      (document.fragment? name).map schema.coercion.normalFragment := Members.get?_map fun _ => rfl
  unfold fragmentEdges
  rw [hget]
  cases document.fragment? name with
  | none => rfl
  | some fragment =>
    exact congrArg (List.map fun mention : String × Pos => ((), mention.1)) (Selection.spreadsOf_normal _ _)

/-- A cycle of fragments is reported. -/
theorem acyclic_of_cycleFaults {document : Document} (h : document.fragments.flatMap document.cycleFaults = []) :
    document.Acyclic := by
  have hnodes (name : String) (hname : document.fragmentEdges name ≠ []) : name ∈ Members.names document.fragments := by
    unfold fragmentEdges at hname
    split at hname
    · next fragment hfragment =>
      exact List.mem_map.2 ⟨fragment, Members.mem_of_get? hfragment, Members.name_of_get? hfragment⟩
    · exact absurd rfl hname
  have hfind : ∀ start ∈ Members.names document.fragments,
      Cycle.find? document.fragmentEdges (Members.names document.fragments).length start = none := by
    refine List.forall_mem_map.2 fun fragment hfragment => ?_
    have hfaults := List.flatMap_eq_nil_iff.1 h fragment hfragment
    unfold cycleFaults at hfaults
    rw [Members.names, List.length_map]
    refine Option.eq_none_iff_forall_ne_some.2 fun path hpath => ?_
    rw [show Cycle.find? document.fragmentEdges document.fragments.length fragment.name = some path from hpath] at hfaults
    cases hfaults
  intro name hname
  exact Cycle.acyclic_of_find? hnodes hfind name (hname.lift id fun _ _ hspreads => ⟨(), hspreads⟩)

theorem acyclic_of_faults {schema : Schema} {document : Document} (h : document.faults schema = []) :
    document.Acyclic := acyclic_of_cycleFaults (List.append_eq_nil_iff.1 h).2

end Document

/-- No fragment of a request that is read and valid spreads itself. -/
theorem Schema.request?_acyclic {schema : Schema} {source : List UInt8} {document : Document}
    (h : schema.request? source = .ok document) : document.Acyclic := by
  obtain ⟨read, -, hfaults, rfl⟩ := request?_read h
  intro name hname
  unfold Document.Spreads at hname
  rw [Document.fragmentEdges_normal] at hname
  exact Document.acyclic_of_faults hfaults name hname

end GraphQL
