import GraphQL.Cycle
import GraphQL.Proofs.Keyed
import Mathlib.Data.Set.Finite.Lemmas
import Mathlib.Data.String.Basic
import Mathlib.Logic.Relation

/-!
# No cycle is overlooked

`Cycle.find?` searches depth first. A search that finds nothing has visited all names that can be reached through names
greater than the start, and none of them has an edge back to it (`Cycle.search_none`). The smallest name on a cycle can
only get to greater names on its way back, so if no name finds a cycle there is none (`Cycle.acyclic_of_find?`).

What a search finds is a way along edges through greater names, and back (`Cycle.search_some`), so that a name that
finds one is the smallest on a cycle (`Cycle.Returns.chain`, `Cycle.Returns.least`).
-/

namespace GraphQL.Cycle

variable {ε : Type} {edges : String → List (ε × String)} {start : String} {nodes : List String}

/-- There is an edge from the first name to the second. -/
def Edge (edges : String → List (ε × String)) (name next : String) : Prop := ∃ label, (label, next) ∈ edges name

/-- A step of the search: along an edge to a name that is greater than the start. -/
def Step (edges : String → List (ε × String)) (start name next : String) : Prop :=
  Edge edges name next ∧ start < next

/-! ### What a search leaves behind -/

/-- All that there is to see behind the edges is among the visited names, and none leads back to the start. -/
def Exhausted (start : String) (visited : List String) (edges : List (ε × String)) : Prop :=
  ∀ edge ∈ edges, edge.2 ≠ start ∧ (start < edge.2 → edge.2 ∈ visited)

/-- The names that have been visited in between are exhausted. -/
structure Explored (edges : String → List (ε × String)) (start : String) (before after : List String) : Prop where
  subset : before ⊆ after
  exhausted : ∀ name ∈ after, name ∉ before → Exhausted start after (edges name)

theorem Exhausted.mono {before after : List String} {found : List (ε × String)} (h : Exhausted start before found)
    (hsub : before ⊆ after) : Exhausted start after found :=
  fun edge hedge => ⟨(h edge hedge).1, fun hlt => hsub ((h edge hedge).2 hlt)⟩

theorem Explored.refl (visited : List String) : Explored edges start visited visited :=
  ⟨fun _ => id, fun _ hname hnot => absurd hname hnot⟩

theorem Explored.trans {before between after : List String} (h : Explored edges start before between)
    (h' : Explored edges start between after) : Explored edges start before after where
  subset := List.Subset.trans h.subset h'.subset
  exhausted := by
    intro name hname hnew
    by_cases hbetween : name ∈ between
    · exact (h.exhausted name hbetween hnew).mono h'.subset
    · exact h'.exhausted name hname hbetween

/-- The names that are still to be visited. -/
def unvisited (nodes visited : List String) : List String := nodes.filter (· ∉ visited)

private theorem length_unvisited_lt {name : String} {visited more : List String} (hname : name ∈ nodes)
    (hnew : name ∉ visited) (hmore : name :: visited ⊆ more) :
    (unvisited nodes more).length < (unvisited nodes visited).length := by
  have hfilter : unvisited nodes more = (unvisited nodes visited).filter (· ∉ more) := by
    unfold unvisited
    rw [List.filter_filter]
    refine List.filter_congr fun other _ => ?_
    by_cases hother : other ∈ visited <;> simp [hother, hmore (List.mem_cons_of_mem name _)]
  rw [hfilter, List.length_filter_lt_length_iff_exists]
  refine ⟨name, List.mem_filter.2 ⟨hname, by simpa using hnew⟩, ?_⟩
  simpa using hmore List.mem_cons_self

/-- What is done with each edge of a name that is visited. -/
private def follow (edges : String → List (ε × String)) (start : String) (length : Nat) (name : String)
    (state : List String × Option (Path ε)) (edge : ε × String) : List String × Option (Path ε) :=
  match state.2 with
  | some path => (state.1, some path)
  | none =>
    if edge.2 = start then (state.1, some [(name, edge.1)])
    else if start < edge.2 then
      let (visited, found) := search edges start length edge.2 state.1
      (visited, found.map ((name, edge.1) :: ·))
    else (state.1, none)

private theorem search_succ (length : Nat) (name : String) (visited : List String) :
    search edges start (length + 1) name visited =
      if visited.contains name then (visited, none)
      else (edges name).foldl (follow edges start length name) (name :: visited, none) := rfl

/-- Once something is found it stays. -/
private theorem foldl_follow_some {length : Nat} {name : String} (visited : List String) (path : Path ε)
    (rest : List (ε × String)) :
    rest.foldl (follow edges start length name) (visited, some path) = (visited, some path) := by
  induction rest with
  | nil => rfl
  | cons edge rest ih => exact ih

/-- Following edges keeps the visited names explored, if searching on from each of their ends does. -/
private theorem foldl_follow_none {length : Nat} {name : String} {least : List String}
    (hsearch : ∀ {next : String} {visited after : List String}, least ⊆ visited →
      search edges start length next visited = (after, none) → next ∈ after ∧ Explored edges start visited after)
    (rest : List (ε × String)) :
    ∀ {visited after : List String}, least ⊆ visited →
      rest.foldl (follow edges start length name) (visited, none) = (after, none) →
        Exhausted start after rest ∧ Explored edges start visited after := by
  induction rest with
  | nil =>
    intro visited after _ h
    cases h
    exact ⟨nofun, .refl _⟩
  | cons edge rest ih =>
    intro visited after hleast h
    rw [List.foldl_cons] at h
    unfold follow at h
    dsimp only at h
    split at h
    · -- an edge back to the start would have been found
      have hsome := h.symm.trans (foldl_follow_some visited _ rest)
      cases hsome
    · next hne =>
      split at h
      · next hlt =>
        cases hnext : search edges start length edge.2 visited with
        | mk between found =>
          rw [hnext] at h
          cases found with
          | some path =>
            have hsome := h.symm.trans (foldl_follow_some between _ rest)
            cases hsome
          | none =>
            obtain ⟨hmem, hbetween⟩ := hsearch hleast hnext
            obtain ⟨hrest, hafter⟩ := ih (List.Subset.trans hleast hbetween.subset) h
            refine ⟨List.forall_mem_cons.2 ⟨⟨hne, fun _ => hafter.subset hmem⟩, hrest⟩, hbetween.trans hafter⟩
      · next hnot =>
        obtain ⟨hrest, hafter⟩ := ih hleast h
        exact ⟨List.forall_mem_cons.2 ⟨⟨hne, fun hlt => absurd hlt hnot⟩, hrest⟩, hafter⟩

/-- What a search that finds nothing has visited. The length suffices as long as it exceeds the number of names that
are not visited yet. -/
theorem search_none (hnodes : ∀ name, edges name ≠ [] → name ∈ nodes) (length : Nat) :
    ∀ {name : String} {visited after : List String}, (unvisited nodes visited).length < length →
      search edges start length name visited = (after, none) →
        name ∈ after ∧ Explored edges start visited after := by
  induction length with
  | zero => exact fun h => absurd h (Nat.not_lt_zero _)
  | succ length ih =>
    intro name visited after hlength h
    rw [search_succ] at h
    split at h
    · next hvisited =>
      cases h
      exact ⟨List.contains_iff_mem.1 hvisited, .refl _⟩
    · next hvisited =>
      have hnew : name ∉ visited := by simpa using hvisited
      have hfold : Exhausted start after (edges name) ∧ Explored edges start (name :: visited) after := by
        by_cases hedges : edges name = []
        · rw [hedges] at h ⊢
          cases h
          exact ⟨nofun, .refl _⟩
        · refine foldl_follow_none (fun {next between after} hsub hnext => ih ?_ hnext) _ (List.Subset.refl _) h
          have hless := length_unvisited_lt (hnodes name hedges) hnew hsub
          omega
      obtain ⟨hexhausted, hexplored⟩ := hfold
      refine ⟨hexplored.subset List.mem_cons_self, ?_, fun other hother hold => ?_⟩
      · exact List.Subset.trans (List.subset_cons_self _ _) hexplored.subset
      · by_cases heq : other = name
        · exact heq ▸ hexhausted
        · exact hexplored.exhausted other hother (by simp [heq, hold])

/-- If no way back is found, no name that the search can get to has an edge to the start. -/
theorem not_edge_of_find?_eq_none (hnodes : ∀ name, edges name ≠ [] → name ∈ nodes)
    (h : find? edges nodes.length start = none) {last : String}
    (hlast : Relation.ReflTransGen (Step edges start) start last) : ¬ Edge edges last start := by
  cases hsearch : search edges start (nodes.length + 1) start [] with
  | mk after found =>
    unfold find? at h
    rw [hsearch] at h
    obtain rfl : found = none := h
    have hlength : (unvisited nodes []).length < nodes.length + 1 := Nat.lt_succ_of_le (List.length_filter_le _ _)
    obtain ⟨hstart, hexplored⟩ := search_none hnodes _ hlength hsearch
    have hvisited : last ∈ after := by
      induction hlast with
      | refl => exact hstart
      | tail _ hstep ih =>
        obtain ⟨⟨label, hedge⟩, hlt⟩ := hstep
        exact (hexplored.exhausted _ ih List.not_mem_nil _ hedge).2 hlt
    rintro ⟨label, hedge⟩
    exact (hexplored.exhausted last hvisited List.not_mem_nil _ hedge).1 rfl

/-! ### Cycles -/

/-- Where a cycle passes through no smaller name than the start, the search follows it. -/
private theorem steps_of_edges {last : String}
    (hleast : ∀ name, Relation.TransGen (Edge edges) name name → ¬ name < start)
    (h : Relation.ReflTransGen (Edge edges) start last) (hback : Relation.ReflTransGen (Edge edges) last start) :
    Relation.ReflTransGen (Step edges start) start last := by
  induction h with
  | refl => exact .refl
  | @tail between last hfirst hedge ih =>
    have hsteps := ih (.head hedge hback)
    rcases Relation.ReflTransGen.cases_head hback with rfl | ⟨next, hnext, hrest⟩
    · exact .refl
    · have hcycle : Relation.TransGen (Edge edges) last last :=
        Relation.TransGen.head' hnext (hrest.trans (hfirst.tail hedge))
      rcases lt_trichotomy start last with hlt | rfl | hgt
      · exact hsteps.tail ⟨hedge, hlt⟩
      · exact .refl
      · exact absurd hgt (hleast last hcycle)

/-- There is no cycle if no name finds one. -/
theorem acyclic_of_find? (hnodes : ∀ name, edges name ≠ [] → name ∈ nodes)
    (h : ∀ start ∈ nodes, find? edges nodes.length start = none) (name : String) :
    ¬ Relation.TransGen (Edge edges) name name := by
  intro hname
  have hmem {name : String} (hname : Relation.TransGen (Edge edges) name name) : name ∈ nodes := by
    obtain ⟨next, ⟨label, hedge⟩, -⟩ := Relation.TransGen.head'_iff.1 hname
    exact hnodes name (List.ne_nil_of_mem hedge)
  -- the smallest of the names on cycles finds its cycle
  have hfinite : {name | Relation.TransGen (Edge edges) name name}.Finite :=
    nodes.toFinset.finite_toSet.subset fun name hname => List.mem_toFinset.2 (hmem hname)
  obtain ⟨start, hstart, hleast⟩ := Set.exists_min_image _ id hfinite ⟨name, hname⟩
  obtain ⟨last, hlast, hedge⟩ := Relation.TransGen.tail'_iff.1 hstart
  have hsteps := steps_of_edges (fun name hname => not_lt.2 (hleast name hname)) hlast (.single hedge)
  exact not_edge_of_find?_eq_none hnodes (h start (hmem hstart)) hsteps hedge

/-! ### What a search finds -/

/-- The way leads from the name along edges through names greater than the start, and then back to the start. -/
inductive Returns (edges : String → List (ε × String)) (start : String) : String → Path ε → Prop
  | back {name : String} {label : ε} (hedge : (label, start) ∈ edges name) : Returns edges start name [(name, label)]
  | on {name next : String} {label : ε} {path : Path ε} (hedge : (label, next) ∈ edges name) (hgreater : start < next)
      (h : Returns edges start next path) : Returns edges start name ((name, label) :: path)

namespace Returns

variable {name : String} {path : Path ε}

theorem head (h : Returns edges start name path) : (Entries.keys path).head? = some name := by
  cases h <;> rfl

/-- There is an edge from each name on the way to the next one, and from the last to the start. -/
theorem chain (h : Returns edges start name path) : List.IsChain (Edge edges) (Entries.keys path ++ [start]) := by
  induction h with
  | back hedge => exact List.isChain_pair.2 ⟨_, hedge⟩
  | @on name next label path hedge hgreater h ih =>
    refine List.isChain_cons.2 ⟨fun other hother => ?_, ih⟩
    have hnext : (Entries.keys path ++ [start]).head? = some next := by rw [List.head?_append, h.head, Option.some_or]
    cases hnext.symm.trans hother
    exact ⟨label, hedge⟩

theorem transGen (h : Returns edges start name path) : Relation.TransGen (Edge edges) name start := by
  induction h with
  | back hedge => exact .single ⟨_, hedge⟩
  | on hedge _ _ ih => exact .head ⟨_, hedge⟩ ih

/-- The names on the way, save the first, are greater than the start. -/
theorem least (h : Returns edges start name path) : ∀ other ∈ Entries.keys path, other = name ∨ start < other := by
  induction h with
  | back hedge => exact fun other hother => .inl (List.mem_singleton.1 hother)
  | on hedge hgreater h ih =>
    intro other hother
    rcases List.mem_cons.1 hother with rfl | hother
    · exact .inl rfl
    · exact .inr ((ih other hother).elim (fun heq => heq ▸ hgreater) id)

end Returns

/-- The way follows the edge of the name, to the start or to where a search on from there has found one. -/
private def FoundAlong (edges : String → List (ε × String)) (start : String) (length : Nat) (name : String)
    (path : Path ε) (edge : ε × String) : Prop :=
  (edge.2 = start ∧ path = [(name, edge.1)]) ∨
    start < edge.2 ∧ ∃ visited after more, search edges start length edge.2 visited = (after, some more) ∧
      path = (name, edge.1) :: more

private theorem foldl_follow_found {length : Nat} {name : String} (rest : List (ε × String)) :
    ∀ {visited after : List String} {path : Path ε},
      rest.foldl (follow edges start length name) (visited, none) = (after, some path) →
        ∃ edge ∈ rest, FoundAlong edges start length name path edge := by
  induction rest with
  | nil => exact fun h => nomatch h
  | cons edge rest ih =>
    intro visited after path h
    have hlater (h : ∃ other ∈ rest, FoundAlong edges start length name path other) :
        ∃ other ∈ edge :: rest, FoundAlong edges start length name path other :=
      h.imp fun _ => And.imp_left (List.mem_cons_of_mem _)
    rw [List.foldl_cons] at h
    unfold follow at h
    dsimp only at h
    split at h
    · next heq =>
      have hsome := h.symm.trans (foldl_follow_some visited _ rest)
      cases hsome
      exact ⟨edge, List.mem_cons_self, .inl ⟨heq, rfl⟩⟩
    · split at h
      · next hlt =>
        cases hnext : search edges start length edge.2 visited with
        | mk between found =>
          rw [hnext] at h
          cases found with
          | some more =>
            have hsome := h.symm.trans (foldl_follow_some between _ rest)
            cases hsome
            exact ⟨edge, List.mem_cons_self, .inr ⟨hlt, visited, _, more, hnext, rfl⟩⟩
          | none => exact hlater (ih h)
      · exact hlater (ih h)

/-- What is found is a way back, whatever was visited and however far was searched. -/
theorem search_some (length : Nat) :
    ∀ {name : String} {visited after : List String} {path : Path ε},
      search edges start length name visited = (after, some path) → Returns edges start name path := by
  induction length with
  | zero => exact fun h => nomatch h
  | succ length ih =>
    intro name visited after path h
    rw [search_succ] at h
    split at h
    · cases h
    · obtain ⟨⟨label, next⟩, hedge, ⟨heq, rfl⟩ | ⟨hlt, visited, after, more, hmore, rfl⟩⟩ := foldl_follow_found _ h
      · exact .back (show (label, start) ∈ edges name from heq ▸ hedge)
      · exact .on hedge hlt (ih hmore)

theorem returns_of_find? {size : Nat} {path : Path ε} (h : find? edges size start = some path) :
    Returns edges start start path := by
  cases hsearch : search edges start (size + 1) start [] with
  | mk after found =>
    unfold find? at h
    rw [hsearch] at h
    cases h
    exact search_some _ hsearch

end GraphQL.Cycle
