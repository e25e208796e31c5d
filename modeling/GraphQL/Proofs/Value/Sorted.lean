import GraphQL.Proofs.Json.Keys
import GraphQL.Proofs.Text.Order
import GraphQL.Value.Json

/-!
# JSON text with sorted keys

The text of a value in a layout that sorts keys is that of the sorted value, also if it goes through JSON before that.
The keys of each object ascend in it, and it does not depend on the order in which a value has them
(`Value.jsonText_canonical`).
-/

namespace GraphQL

/-! ### Sorting by key -/

namespace Entries

variable {α β : Type} {entries others : List (String × α)}

theorem pairwise_sortByKey (entries : List (String × α)) :
    (sortByKey entries).Pairwise fun a b => keyLe a b = true := by
  refine List.pairwise_mergeSort (fun a b c => ?_) (fun a b => ?_) entries
  · simp only [keyLe, decide_eq_true_eq]
    exact String.le_trans
  · simp only [keyLe, Bool.or_eq_true, decide_eq_true_eq]
    exact String.le_total a.1 b.1

theorem sortByKey_perm (entries : List (String × α)) : (sortByKey entries).Perm entries := List.mergeSort_perm _ _

theorem sortByKey_sortByKey (entries : List (String × α)) : sortByKey (sortByKey entries) = sortByKey entries :=
  List.mergeSort_of_pairwise (pairwise_sortByKey entries)

theorem map_sortByKey (f : α → β) (entries : List (String × α)) :
    (sortByKey entries).map (fun entry => (entry.1, f entry.2)) =
      sortByKey (entries.map fun entry => (entry.1, f entry.2)) :=
  List.map_mergeSort fun _ _ _ _ => rfl

theorem keys_sortByKey (entries : List (String × α)) : keys (sortByKey entries) = (keys entries).mergeSort :=
  List.map_mergeSort fun _ _ _ _ => rfl

/-- Sorting forgets the order of entries, if no key comes twice. -/
theorem sortByKey_eq_of_perm (hkeys : (keys entries).Nodup) (h : entries.Perm others) :
    sortByKey entries = sortByKey others := by
  have hperm := ((sortByKey_perm entries).trans h).trans (sortByKey_perm others).symm
  refine List.Perm.eq_of_pairwise (fun a b ha hb hab hba => ?_) (pairwise_sortByKey entries)
    (pairwise_sortByKey others) hperm
  simp only [keyLe, decide_eq_true_eq] at hab hba
  have ha := (sortByKey_perm entries).mem_iff.1 ha
  have hb := h.mem_iff.2 ((sortByKey_perm others).mem_iff.1 hb)
  exact List.inj_on_of_nodup_map hkeys ha hb (String.le_antisymm hab hba)

end Entries

namespace Value

/-! ### Sorted values -/

theorem sortedEntries_eq_map (entries : List (String × Value)) :
    sortedEntries entries = entries.map fun entry => (entry.1, entry.2.sorted) := by
  induction entries with
  | nil => rfl
  | cons entry rest ih => rw [sortedEntries, List.map_cons, ih]

theorem entriesToJson_eq_map (entries : List (String × Value)) :
    entriesToJson entries = entries.map fun entry => (entry.1, entry.2.toJson) := by
  induction entries with
  | nil => rfl
  | cons entry rest ih => rw [entriesToJson, List.map_cons, ih]

theorem keys_sortedEntries (entries : List (String × Value)) :
    Entries.keys (sortedEntries entries) = Entries.keys entries := by
  rw [sortedEntries_eq_map, Entries.keys, List.map_map]
  rfl

mutual

/-- Sorting twice is sorting once. -/
theorem sorted_sorted (v : Value) : v.sorted.sorted = v.sorted := by
  match v with
  | .list items => rw [sorted, sorted, sortedItems_sortedItems items]
  | .object entries =>
    rw [sorted, sorted, sortedEntries_eq_map (Entries.sortByKey _), Entries.map_sortByKey, ← sortedEntries_eq_map,
      sortedEntries_sortedEntries entries, Entries.sortByKey_sortByKey]
  | .null | .bool _ | .int _ | .float _ | .string _ | .enum _ | .var _ | .time _ => rfl

theorem sortedItems_sortedItems (items : List Value) : sortedItems (sortedItems items) = sortedItems items := by
  match items with
  | [] => rfl
  | v :: rest => rw [sortedItems, sortedItems, sorted_sorted v, sortedItems_sortedItems rest]

theorem sortedEntries_sortedEntries (entries : List (String × Value)) :
    sortedEntries (sortedEntries entries) = sortedEntries entries := by
  match entries with
  | [] => rfl
  | (key, v) :: rest => rw [sortedEntries, sortedEntries, sorted_sorted v, sortedEntries_sortedEntries rest]

end

mutual

/-- Sorting before or after the value becomes JSON makes no difference. -/
theorem toJson_sorted (v : Value) : v.sorted.toJson = v.toJson.sorted := by
  match v with
  | .list items => rw [sorted, toJson, toJson, Json.sorted, itemsToJson_sorted items]
  | .object entries =>
    rw [sorted, toJson, toJson, Json.sorted, entriesToJson_eq_map (Entries.sortByKey _), Entries.map_sortByKey,
      ← entriesToJson_eq_map, entriesToJson_sorted entries]
  | .float x =>
    rw [sorted, toJson]
    · split <;> rfl
    all_goals exact fun _ h => by cases h
  | .null | .bool _ | .int _ | .string _ | .enum _ | .var _ | .time _ => rfl

theorem itemsToJson_sorted (items : List Value) :
    itemsToJson (sortedItems items) = Json.sortedItems (itemsToJson items) := by
  match items with
  | [] => rfl
  | v :: rest =>
    rw [sortedItems, itemsToJson, itemsToJson, Json.sortedItems, toJson_sorted v, itemsToJson_sorted rest]

theorem entriesToJson_sorted (entries : List (String × Value)) :
    entriesToJson (sortedEntries entries) = Json.sortedMembers (entriesToJson entries) := by
  match entries with
  | [] => rfl
  | (key, v) :: rest =>
    rw [sortedEntries, entriesToJson, entriesToJson, Json.sortedMembers, toJson_sorted v, entriesToJson_sorted rest]

end

mutual

/-- What JSON does not have does not come back, so that the JSON stays the same. -/
theorem toJson_ofOrderedJson (v : Value) : (ofOrderedJson v.toJson).toJson = v.toJson := by
  match v with
  | .list items => rw [toJson, ofOrderedJson, toJson, itemsToJson_itemsOfJson items]
  | .object entries => rw [toJson, ofOrderedJson, toJson, entriesToJson_entriesOfJson entries]
  | .float x =>
    rw [toJson]
    split
    · next hfinite => rw [ofOrderedJson, toJson, if_pos hfinite]
    · rfl
  | .null | .bool _ | .int _ | .string _ | .enum _ | .var _ | .time _ => rfl

theorem itemsToJson_itemsOfJson (items : List Value) :
    itemsToJson (itemsOfJson (itemsToJson items)) = itemsToJson items := by
  match items with
  | [] => rfl
  | v :: rest => rw [itemsToJson, itemsOfJson, itemsToJson, toJson_ofOrderedJson v, itemsToJson_itemsOfJson rest]

theorem entriesToJson_entriesOfJson (entries : List (String × Value)) :
    entriesToJson (entriesOfJson (entriesToJson entries)) = entriesToJson entries := by
  match entries with
  | [] => rfl
  | (key, v) :: rest =>
    rw [entriesToJson, entriesOfJson, entriesToJson, toJson_ofOrderedJson v, entriesToJson_entriesOfJson rest]

end

theorem jsonText_sorted (v : Value) (indent : Option Nat) :
    v.jsonText ⟨true, indent⟩ = v.sorted.jsonText ⟨false, indent⟩ := by
  rw [jsonText, jsonText, toJson_sorted]
  rfl

/-- The value that comes back from JSON is sorted to the same text. -/
theorem jsonText_ofJson (v : Value) (indent : Option Nat) :
    (ofJson v.toJson).sorted.jsonText ⟨false, indent⟩ = v.jsonText ⟨true, indent⟩ := by
  rw [jsonText_sorted, jsonText, jsonText, ofJson, ← toJson_sorted v, toJson_sorted (ofOrderedJson _),
    toJson_ofOrderedJson, ← toJson_sorted, sorted_sorted]

/-! ### Keys -/

mutual

/-- The keys of each object, an object after those inside of it. -/
def objectKeys : Value → List (List String)
  | list items => itemsKeys items
  | object entries => entriesKeys entries ++ [Entries.keys entries]
  | _ => []

/-- `objectKeys` of each item. -/
def itemsKeys : List Value → List (List String)
  | [] => []
  | v :: rest => objectKeys v ++ itemsKeys rest

/-- `objectKeys` of the value of each entry. -/
def entriesKeys : List (String × Value) → List (List String)
  | [] => []
  | (_, v) :: rest => objectKeys v ++ entriesKeys rest

end

mutual

theorem objectKeys_toJson (v : Value) : v.toJson.objectKeys = v.objectKeys := by
  match v with
  | .list items => rw [toJson, Json.objectKeys, objectKeys, itemsKeys_toJson items]
  | .object entries =>
    have hkeys : Entries.keys (entriesToJson entries) = Entries.keys entries := by
      rw [entriesToJson_eq_map, Entries.keys, List.map_map]
      rfl
    rw [toJson, Json.objectKeys, objectKeys, entriesKeys_toJson entries, hkeys]
  | .float x =>
    rw [toJson]
    split <;> rfl
  | .null | .bool _ | .int _ | .string _ | .enum _ | .var _ | .time _ => rfl

theorem itemsKeys_toJson (items : List Value) : Json.itemsKeys (itemsToJson items) = itemsKeys items := by
  match items with
  | [] => rfl
  | v :: rest => rw [itemsToJson, Json.itemsKeys, itemsKeys, objectKeys_toJson v, itemsKeys_toJson rest]

theorem entriesKeys_toJson (entries : List (String × Value)) :
    Json.membersKeys (entriesToJson entries) = entriesKeys entries := by
  match entries with
  | [] => rfl
  | (key, v) :: rest =>
    rw [entriesToJson, Json.membersKeys, entriesKeys, objectKeys_toJson v, entriesKeys_toJson rest]

end

theorem entriesKeys_eq_flatMap (entries : List (String × Value)) :
    entriesKeys entries = entries.flatMap fun entry => entry.2.objectKeys := by
  induction entries with
  | nil => rfl
  | cons entry rest ih => rw [entriesKeys, List.flatMap_cons, ih]

mutual

/-- A sorted value has the objects of the value, with the keys of each one sorted. -/
theorem objectKeys_sorted (v : Value) : v.sorted.objectKeys.Perm (v.objectKeys.map fun keys => keys.mergeSort) := by
  match v with
  | .list items =>
    rw [sorted, objectKeys, objectKeys]
    exact itemsKeys_sorted items
  | .object entries =>
    rw [sorted, objectKeys, objectKeys, Entries.keys_sortByKey, keys_sortedEntries, List.map_append,
      List.map_singleton]
    refine List.Perm.append_right _ (List.Perm.trans ?_ (entriesKeys_sorted entries))
    rw [entriesKeys_eq_flatMap, entriesKeys_eq_flatMap]
    exact (Entries.sortByKey_perm _).flatMap_right _
  | .null | .bool _ | .int _ | .float _ | .string _ | .enum _ | .var _ | .time _ => exact .nil

theorem itemsKeys_sorted (items : List Value) :
    (itemsKeys (sortedItems items)).Perm ((itemsKeys items).map fun keys => keys.mergeSort) := by
  match items with
  | [] => exact .nil
  | v :: rest =>
    rw [sortedItems, itemsKeys, itemsKeys, List.map_append]
    exact (objectKeys_sorted v).append (itemsKeys_sorted rest)

theorem entriesKeys_sorted (entries : List (String × Value)) :
    (entriesKeys (sortedEntries entries)).Perm ((entriesKeys entries).map fun keys => keys.mergeSort) := by
  match entries with
  | [] => exact .nil
  | (key, v) :: rest =>
    rw [sortedEntries, entriesKeys, entriesKeys, List.map_append]
    exact (objectKeys_sorted v).append (entriesKeys_sorted rest)

end

/-! ### Values in another order -/

mutual

/-- The values are the same but for the order of the entries in objects, at any depth. -/
inductive Reordered : Value → Value → Prop
  | refl (v : Value) : Reordered v v
  | list {items others : List Value} (h : ReorderedItems items others) : Reordered (.list items) (.list others)
  | object {entries mid others : List (String × Value)} (h : ReorderedEntries entries mid) (hperm : mid.Perm others) :
      Reordered (.object entries) (.object others)

/-- `Reordered` at each place. -/
inductive ReorderedItems : List Value → List Value → Prop
  | nil : ReorderedItems [] []
  | cons {v w : Value} {items others : List Value} (hv : Reordered v w) (h : ReorderedItems items others) :
      ReorderedItems (v :: items) (w :: others)

/-- The same keys at each place, with values that are `Reordered`. -/
inductive ReorderedEntries : List (String × Value) → List (String × Value) → Prop
  | nil : ReorderedEntries [] []
  | cons {v w : Value} {entries others : List (String × Value)} (key : String) (hv : Reordered v w)
      (h : ReorderedEntries entries others) : ReorderedEntries ((key, v) :: entries) ((key, w) :: others)

end

mutual

/-- Sorting forgets the order of entries, if no object has a key twice. -/
theorem Reordered.sorted_eq {v w : Value} (hkeys : ∀ keys ∈ v.objectKeys, keys.Nodup) (h : Reordered v w) :
    v.sorted = w.sorted := by
  match v with
  | .list items =>
    cases h with
    | refl => rfl
    | list h => rw [sorted, sorted, h.sorted_eq hkeys]
  | .object entries =>
    cases h with
    | refl => rfl
    | @object _ mid others h hperm =>
      rw [objectKeys, List.forall_mem_append, List.forall_mem_singleton] at hkeys
      obtain ⟨hinside, hnodup⟩ := hkeys
      rw [sorted, sorted, h.sorted_eq hinside, sortedEntries_eq_map others]
      refine congrArg _ (Entries.sortByKey_eq_of_perm ?_ ?_)
      · rwa [← h.sorted_eq hinside, keys_sortedEntries]
      · rw [sortedEntries_eq_map]
        exact hperm.map _
  | .null | .bool _ | .int _ | .float _ | .string _ | .enum _ | .var _ | .time _ =>
    cases h
    rfl

theorem ReorderedItems.sorted_eq {items others : List Value} (hkeys : ∀ keys ∈ itemsKeys items, keys.Nodup)
    (h : ReorderedItems items others) : sortedItems items = sortedItems others := by
  match items with
  | [] =>
    cases h
    rfl
  | v :: rest =>
    obtain _ | ⟨hv, h⟩ := h
    rw [itemsKeys, List.forall_mem_append] at hkeys
    rw [sortedItems, sortedItems, hv.sorted_eq hkeys.1, h.sorted_eq hkeys.2]

theorem ReorderedEntries.sorted_eq {entries others : List (String × Value)}
    (hkeys : ∀ keys ∈ entriesKeys entries, keys.Nodup) (h : ReorderedEntries entries others) :
    sortedEntries entries = sortedEntries others := by
  match entries with
  | [] =>
    cases h
    rfl
  | (key, v) :: rest =>
    obtain _ | ⟨_, hv, h⟩ := h
    rw [entriesKeys, List.forall_mem_append] at hkeys
    rw [sortedEntries, sortedEntries, hv.sorted_eq hkeys.1, h.sorted_eq hkeys.2]

end

/-! ### The text -/

/-- The text with sorted keys is that of the sorted value, and of the sorted one that comes back from JSON. In each
object in it the keys ascend as bytes, and it has the keys of all objects of the value. Values without repeated keys
that differ only in the order of entries have the same text. -/
theorem jsonText_canonical (v : Value) (indent : Option Nat) :
    v.jsonText ⟨true, indent⟩ = v.sorted.jsonText ⟨false, indent⟩ ∧
      v.jsonText ⟨true, indent⟩ = (ofJson v.toJson).sorted.jsonText ⟨false, indent⟩ ∧
        (∀ keys ∈ Json.textKeys (v.jsonText ⟨true, indent⟩), keys.Pairwise fun a b => bytesOf a ≤ bytesOf b) ∧
          (Json.textKeys (v.jsonText ⟨true, indent⟩)).Perm (v.objectKeys.map fun keys => keys.mergeSort) ∧
            ∀ w : Value, (∀ keys ∈ v.objectKeys, keys.Nodup) → Reordered v w →
              w.jsonText ⟨true, indent⟩ = v.jsonText ⟨true, indent⟩ := by
  have hkeys : Json.textKeys (v.jsonText ⟨true, indent⟩) = v.sorted.objectKeys := by
    rw [jsonText_sorted, jsonText, Json.textKeys_text, if_neg Bool.false_ne_true, objectKeys_toJson]
  have hperm := objectKeys_sorted v
  refine ⟨jsonText_sorted v indent, (jsonText_ofJson v indent).symm, fun keys hmem => ?_, hkeys ▸ hperm,
    fun w hnodup h => ?_⟩
  · obtain ⟨keys, -, rfl⟩ := List.mem_map.1 (hperm.mem_iff.1 (hkeys ▸ hmem))
    have hsorted := @List.pairwise_mergeSort String (fun a b => decide (a ≤ b))
      (fun a b c => by simpa using String.le_trans) (fun a b => by simpa using String.le_total a b) keys
    exact hsorted.imp fun h => bytesOf_le_iff.2 (of_decide_eq_true h)
  · rw [jsonText_sorted, jsonText_sorted, h.sorted_eq hnodup]

/-- Two orders of keys, at two depths. -/
theorem songs_text_canonical :
    (object [("songs", list [object [("title", string "One"), ("length", int 3)]]), ("first", var "n")]).jsonText
        ⟨true, some 2⟩ =
      (object [("first", var "n"), ("songs", list [object [("length", int 3), ("title", string "One")]])]).jsonText
        ⟨true, some 2⟩ := by
  have hsong : Reordered (object [("title", string "One"), ("length", int 3)])
      (object [("length", int 3), ("title", string "One")]) :=
    .object (.cons "title" (.refl _) (.cons "length" (.refl _) .nil)) (.swap _ _ [])
  have hentries := ReorderedEntries.cons "songs" (.list (.cons hsong .nil)) (.cons "first" (.refl (var "n")) .nil)
  have hcanonical := jsonText_canonical
    (object [("songs", list [object [("title", string "One"), ("length", int 3)]]), ("first", var "n")]) (some 2)
  exact (hcanonical.2.2.2.2 _ (by decide) (.object hentries (.swap _ _ []))).symm

end Value

end GraphQL
