/-!
# Cycles among named things

Fragments spread fragments, and arguments of directives use directives. `Cycle.find?` searches depth first for a way
from a name back to itself that passes only through greater names, so that among the names of a cycle the smallest
one, and no other, finds it.
-/

namespace GraphQL.Cycle

variable {ε : Type}

/-- A way: the names that are left one after the other, each by the edge that is labelled. -/
abbrev Path (ε : Type) := List (String × ε)

/-- Searches on from `name` for a way back to `start`, and tells which names have been visited by then. No name is
visited twice; the first number bounds the length of the way. -/
def search (edges : String → List (ε × String)) (start : String) :
    Nat → String → List String → List String × Option (Path ε)
  | 0, _, visited => (visited, none)
  | length + 1, name, visited =>
    if visited.contains name then (visited, none)
    else
      (edges name).foldl
        (fun (visited, found) (label, next) =>
          match found with
          | some path => (visited, some path)
          | none =>
            if next = start then (visited, some [(name, label)])
            else if start < next then
              let (visited, found) := search edges start length next visited
              (visited, found.map ((name, label) :: ·))
            else (visited, none))
        (name :: visited, none)

/-- A way from `start` back to it, through greater names only. At most `size` names have edges. -/
def find? (edges : String → List (ε × String)) (size : Nat) (start : String) : Option (Path ε) :=
  (search edges start (size + 1) start []).2

end GraphQL.Cycle
