/-!
# Lists with keys

Two kinds of ordered collection run through the library: entries, which are pairs of a key and a value, and
members, which carry their own name. Both keep the order in which keys first came; a key that comes again takes the
place of the earlier one.
-/

namespace GraphQL

/-- Things that are known by a name. -/
class HasName (α : Type) where
  name : α → String

namespace Entries

variable {α : Type}

/-- The value of a key. -/
def get? (key : String) : List (String × α) → Option α
  | [] => none
  | (k, a) :: rest => if k = key then some a else get? key rest

/-- Whether the key has a value. -/
def contains (key : String) (entries : List (String × α)) : Bool := (get? key entries).isSome

/-- Gives the key a value, at its place if it has one and at the end otherwise. -/
def put (key : String) (a : α) : List (String × α) → List (String × α)
  | [] => [(key, a)]
  | (k, b) :: rest => if k = key then (k, a) :: rest else (k, b) :: put key a rest

/-- The keys in order. -/
def keys (entries : List (String × α)) : List String := entries.map Prod.fst

/-- The entries of a list in which keys may repeat: each key has its first place and its last value. -/
def ofList (pairs : List (String × α)) : List (String × α) := pairs.foldl (fun es p => put p.1 p.2 es) []

/-- Whether the keys of two entries are in ascending order of their bytes. -/
def keyLe (a b : String × α) : Bool := decide (a.1 ≤ b.1)

/-- The entries in ascending order of their keys. -/
def sortByKey (entries : List (String × α)) : List (String × α) := entries.mergeSort keyLe

end Entries

namespace Members

variable {α : Type} [HasName α]

/-- The member of the given name. -/
def get? (name : String) (members : List α) : Option α := members.find? (HasName.name · == name)

theorem mem_of_get? {name : String} {members : List α} {a : α} (h : get? name members = some a) : a ∈ members :=
  List.mem_of_find?_eq_some h

theorem name_of_get? {name : String} {members : List α} {a : α} (h : get? name members = some a) :
    HasName.name a = name := by
  have := List.find?_some h
  simpa using this

/-- Whether there is a member of the given name. -/
def contains (name : String) (members : List α) : Bool := members.any (HasName.name · == name)

/-- Adds a member, in the place of the one with its name if there is one and at the end otherwise. -/
def put (a : α) : List α → List α
  | [] => [a]
  | b :: rest => if HasName.name b = HasName.name a then a :: rest else b :: put a rest

/-- The members of other names. -/
def erase (name : String) (members : List α) : List α := members.filter (HasName.name · != name)

theorem length_erase_lt {name : String} {members : List α} {a : α} (h : get? name members = some a) :
    (erase name members).length < members.length :=
  List.length_filter_lt_length_iff_exists.mpr ⟨a, mem_of_get? h, by simp [name_of_get? h]⟩

/-- The names in order. -/
def names (members : List α) : List String := members.map HasName.name

end Members

end GraphQL
