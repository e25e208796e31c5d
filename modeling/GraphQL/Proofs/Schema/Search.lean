import GraphQL.Proofs.Schema.Inheritance

/-!
# The search for an interface in rounds

`Schema.implements` strikes off the types that it has visited. The search may as well keep a stack of names to look at,
and the names that it has seen, and take a name from the stack in each round (`Search.round`). A round changes nothing
about what will be found, and leaves less to be done (`Search.round_cases`). So the search ends in any schema, be it one
where interfaces list each other, or list what does not exist, and it finds what the lists lead to
(`Schema.implements_exact`).
-/

namespace GraphQL

namespace Schema

variable {schema : Schema} {interface name : String}

/-! ### What lists lead to -/

/-- The search finds what a path from one of the pending names leads to. -/
theorem reaches_iff {unvisited : List TypeDecl} {pending : List String} :
    reaches interface unvisited pending = true ↔
      ∃ start ∈ pending, Relation.TransGen (Lists unvisited) start interface :=
  ⟨transGen_of_reaches, reaches_of_transGen⟩

/-- The order in which names are looked at does not matter. -/
theorem reaches_congr_of_mem {unvisited : List TypeDecl} {pending pending' : List String}
    (h : ∀ name, name ∈ pending ↔ name ∈ pending') :
    reaches interface unvisited pending = reaches interface unvisited pending' := by
  rw [Bool.eq_iff_iff, reaches_iff, reaches_iff]
  simp only [h]

/-! ### Types whose names are new -/

/-- The types whose names have not been seen. -/
def unseen (schema : Schema) (seen : List String) : List TypeDecl := schema.types.filter (·.name ∉ seen)

/-- A name that is seen strikes off its type. -/
theorem unseen_cons (schema : Schema) (name : String) (seen : List String) :
    schema.unseen (name :: seen) = Members.erase name (schema.unseen seen) := by
  unfold unseen Members.erase
  rw [List.filter_filter]
  apply List.filter_congr
  intro decl _
  show decide (decl.name ∉ name :: seen) = (decl.name != name && decide (decl.name ∉ seen))
  by_cases hname : decl.name = name <;> simp [hname]

theorem get?_unseen (schema : Schema) (name : String) (seen : List String) :
    Members.get? name (schema.unseen seen) = if name ∈ seen then none else schema.type? name := by
  unfold unseen type? Members.get?
  rw [List.find?_filter]
  split
  · next hseen =>
    rw [List.find?_eq_none]
    intro decl _
    by_cases hname : decl.name = name <;> simp [HasName.name, hname, hseen]
  · next hseen =>
    congr 1
    funext decl
    by_cases hname : decl.name = name <;> simp [HasName.name, hname, hseen]

/-- How many interfaces the types list, all together. -/
def listed (types : List TypeDecl) : Nat := (types.map (·.interfaces.length)).sum

private theorem listed_cons (decl : TypeDecl) (types : List TypeDecl) :
    listed (decl :: types) = decl.interfaces.length + listed types := List.sum_cons

private theorem listed_erase_le (types : List TypeDecl) : listed (Members.erase name types) ≤ listed types :=
  (List.filter_sublist.map _).sum_le_sum fun _ _ => Nat.zero_le _

/-- A type that is struck off takes its interfaces along. -/
private theorem listed_erase {types : List TypeDecl} {decl : TypeDecl} (h : Members.get? name types = some decl) :
    decl.interfaces.length + listed (Members.erase name types) ≤ listed types := by
  induction types with
  | nil => cases h
  | cons first types ih =>
    unfold Members.get? at h
    by_cases hname : HasName.name first = name
    · rw [List.find?_cons_of_pos (by simpa using hname)] at h
      have herase : Members.erase name (first :: types) = Members.erase name types :=
        List.filter_cons_of_neg (by simpa using hname)
      have hle := @listed_erase_le name types
      rw [herase, listed_cons, Option.some.inj h]
      omega
    · rw [List.find?_cons_of_neg (by simpa using hname)] at h
      have herase : Members.erase name (first :: types) = first :: Members.erase name types :=
        List.filter_cons_of_pos (by simpa using hname)
      have hle := ih h
      rw [herase, listed_cons, listed_cons]
      omega

private theorem erase_eq_self {types : List TypeDecl} (h : Members.get? name types = none) :
    Members.erase name types = types := by
  unfold Members.get? at h
  rw [List.find?_eq_none] at h
  apply List.filter_eq_self.2
  intro decl hdecl
  have hname := h decl hdecl
  simpa using hname

/-! ### Rounds -/

/-- A search under way: the names that it has seen, and those still to be looked at, the last one pushed first. -/
structure Search where
  seen : List String
  stack : List String

namespace Search

/-- A round: the name on top of the stack is taken. If it is new, then the interfaces that its type lists are pushed,
unless the one that is looked for is among them. -/
def round (schema : Schema) (interface : String) (search : Search) : Search ⊕ Bool :=
  match search.stack with
  | [] => .inr false
  | name :: stack =>
    if name ∈ search.seen then .inl ⟨search.seen, stack⟩
    else
      match schema.type? name with
      | none => .inl ⟨name :: search.seen, stack⟩
      | some decl =>
        if interface ∈ decl.interfaces.map TypeRef.baseName then .inr true
        else .inl ⟨name :: search.seen, (decl.interfaces.map TypeRef.baseName).reverse ++ stack⟩

/-- The answer, if the search comes to it within the number of rounds. -/
def answer? (schema : Schema) (interface : String) : Nat → Search → Option Bool
  | 0, _ => none
  | n + 1, search =>
    match search.round schema interface with
    | .inr answer => some answer
    | .inl next => answer? schema interface n next

/-- Whether the interface will be found. -/
def finds (schema : Schema) (interface : String) (search : Search) : Bool :=
  reaches interface (schema.unseen search.seen) search.stack

/-- How much is still to be done: names to look at, and interfaces that may come to be pushed. -/
def size (schema : Schema) (search : Search) : Nat := search.stack.length + listed (schema.unseen search.seen)

/-- A round ends the search with what it finds, or it changes nothing about that and leaves less to be done. -/
theorem round_cases (schema : Schema) (interface : String) (search : Search) :
    search.round schema interface = .inr (search.finds schema interface) ∨
      ∃ next : Search, search.round schema interface = .inl next ∧
        next.finds schema interface = search.finds schema interface ∧ next.size schema < search.size schema := by
  obtain ⟨seen, stack⟩ := search
  cases stack with
  | nil =>
    left
    simp [round, finds, reaches]
  | cons name stack =>
    have hget := get?_unseen schema name seen
    by_cases hseen : name ∈ seen
    · rw [if_pos hseen] at hget
      refine .inr ⟨⟨seen, stack⟩, if_pos hseen, (reaches_cons_of_none hget).symm, ?_⟩
      simp [size]
    · rw [if_neg hseen] at hget
      cases htype : schema.type? name with
      | none =>
        rw [htype] at hget
        have hunseen : schema.unseen (name :: seen) = schema.unseen seen := by rw [unseen_cons, erase_eq_self hget]
        refine .inr ⟨⟨name :: seen, stack⟩, by simp [round, hseen, htype], ?_, ?_⟩
        · unfold finds
          rw [hunseen, reaches_cons_of_none hget]
        · simp [size, hunseen]
      | some decl =>
        rw [htype] at hget
        by_cases hfound : interface ∈ decl.interfaces.map TypeRef.baseName
        · left
          have hfinds : finds schema interface ⟨seen, name :: stack⟩ = true := by
            unfold finds
            rw [reaches_cons_of_some hget, List.contains_iff_mem.2 hfound, Bool.true_or]
          rw [hfinds]
          simp only [round, if_neg hseen, htype, if_pos hfound]
        · right
          have hcontains : (decl.interfaces.map TypeRef.baseName).contains interface = false := by
            rw [← Bool.not_eq_true, List.contains_iff_mem]
            exact hfound
          refine ⟨⟨name :: seen, (decl.interfaces.map TypeRef.baseName).reverse ++ stack⟩, ?_, ?_, ?_⟩
          · simp only [round, if_neg hseen, htype, if_neg hfound]
          · unfold finds
            rw [reaches_cons_of_some hget, hcontains, Bool.false_or, unseen_cons]
            apply reaches_congr_of_mem
            intro other
            rw [List.mem_append, List.mem_append, List.mem_reverse]
          · have hlisted := listed_erase hget
            unfold size
            dsimp only
            rw [unseen_cons, List.length_append, List.length_reverse, List.length_map, List.length_cons]
            omega

/-- The search comes to its answer, which is what it finds. -/
theorem answer?_eq (schema : Schema) (interface : String) {n : Nat} {search : Search} (h : search.size schema < n) :
    search.answer? schema interface n = some (search.finds schema interface) := by
  induction n generalizing search with
  | zero => exact absurd h (Nat.not_lt_zero _)
  | succ n ih =>
    unfold answer?
    rcases round_cases schema interface search with hround | ⟨next, hround, hfinds, hless⟩
    · rw [hround]
    · rw [hround, ← hfinds]
      exact ih (by omega)

end Search

/-- In every schema, a type implements an interface exactly if a path of one or more steps leads from it there, where a
step is from a type of the schema to what this lists. A search with a stack that starts with the name of the type gives
the same answer, and takes at most two rounds more than there are entries in the lists of all types. -/
theorem implements_exact (schema : Schema) (name interface : String) :
    (schema.implements name interface = true ↔ Relation.TransGen (Lists schema.types) name interface) ∧
      Search.answer? schema interface (listed schema.types + 2) ⟨[], [name]⟩ =
        some (schema.implements name interface) := by
  constructor
  · constructor
    · exact transGen_of_implements
    · exact implements_of_transGen
  · have hall : schema.unseen [] = schema.types := by simp [unseen]
    have hsize : Search.size schema ⟨[], [name]⟩ < listed schema.types + 2 := by
      unfold Search.size
      rw [hall, List.length_singleton]
      omega
    have hfinds : Search.finds schema interface ⟨[], [name]⟩ = schema.implements name interface := by
      unfold Search.finds
      rw [hall]
      rfl
    rw [Search.answer?_eq schema interface hsize, hfinds]

end Schema

end GraphQL
