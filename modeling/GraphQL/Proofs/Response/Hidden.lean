import GraphQL.Proofs.Execution.Inlined

/-!
# Responses with a place hidden

Two responses agree beside a place if they are the same once the value there is hidden (`Value.hide`) and the errors
whose paths lead there are left out (`Errors.beside`). Both are computed level by level: on the way down `Way` tells
what is left of the path to the place. Merging may as well be done with hidden values
(`Value.hideEntries_mergeEntry`).
-/

namespace GraphQL

/-! ### The way to a place -/

/-- The path from a value to a place in it; none if the place is elsewhere. -/
abbrev Way := Option (List PathSegment)

namespace Way

/-- The way from what is under a segment. -/
def step (segment : PathSegment) : Way → Way
  | none => none
  | some [] => some []
  | some (next :: rest) => if next = segment then some rest else none

/-- The way from what is at the end of a path. -/
def walk (path : List PathSegment) (way : Way) : Way := path.foldl (fun way segment => way.step segment) way

@[simp]
theorem step_none (segment : PathSegment) : step segment none = none := rfl

@[simp]
theorem step_here (segment : PathSegment) : step segment (some []) = some [] := rfl

@[simp]
theorem walk_nil (way : Way) : walk [] way = way := rfl

@[simp]
theorem walk_cons (segment : PathSegment) (path : List PathSegment) (way : Way) :
    walk (segment :: path) way = walk path (way.step segment) := rfl

theorem walk_append (path more : List PathSegment) (way : Way) :
    walk (path ++ more) way = walk more (walk path way) := List.foldl_append

private theorem walk_none (path : List PathSegment) : walk path none = none := by
  induction path with
  | nil => rfl
  | cons segment path ih => rw [walk_cons, step_none, ih]

/-- A path ends at the place or below it if it starts with the path to it. -/
theorem walk_eq_here_iff {target path : List PathSegment} : walk path (some target) = some [] ↔ target <+: path := by
  have hhere (path : List PathSegment) : walk path (some []) = some [] := by
    induction path with
    | nil => rfl
    | cons segment path ih => rw [walk_cons, step_here, ih]
  induction target generalizing path with
  | nil => simp [hhere]
  | cons next rest ih =>
    cases path with
    | nil => simp
    | cons segment path =>
      rw [walk_cons, step, List.cons_prefix_cons]
      by_cases hnext : next = segment
      · rw [if_pos hnext]
        exact ih.trans (by simp [hnext])
      · rw [if_neg hnext, walk_none]
        simp [hnext]

/-- Nothing is left of the way where a path parts from it. -/
theorem walk_of_parted {target path : List PathSegment} (hbelow : ¬ target <+: path) (habove : ¬ path <+: target) :
    walk path (some target) = none := by
  induction target generalizing path with
  | nil => exact absurd List.nil_prefix hbelow
  | cons next rest ih =>
    cases path with
    | nil => exact absurd List.nil_prefix habove
    | cons segment path =>
      rw [List.cons_prefix_cons] at hbelow habove
      rw [walk_cons, step]
      by_cases hnext : next = segment
      · rw [if_pos hnext]
        exact ih (fun h => hbelow ⟨hnext, h⟩) fun h => habove ⟨hnext.symm, h⟩
      · rw [if_neg hnext, walk_none]

end Way

/-! ### Hidden values -/

namespace Value

/-- The value with `null` at the end of the path. -/
def hide : List PathSegment → Value → Value
  | [], _ => .null
  | .key key :: rest, .object entries =>
    .object (entries.map fun entry => if key = entry.1 then (entry.1, hide rest entry.2) else entry)
  | .index index :: rest, .list items =>
    .list (items.mapIdx fun i item => if index = i then hide rest item else item)
  | _ :: _, v => v

/-- The value with `null` at the place, if it is in the value. -/
def hideAt (v : Value) : Way → Value
  | none => v
  | some path => v.hide path

/-- The entries of an object with `null` at the place. -/
def hideEntries (way : Way) (entries : List (String × Value)) : List (String × Value) :=
  entries.map fun entry => (entry.1, entry.2.hideAt (way.step (.key entry.1)))

/-- The items of a list, where `first` is the index of the first, with `null` at the place. -/
def hideItems (way : Way) (first : Nat) (items : List Value) : List Value :=
  items.mapIdx fun i item => item.hideAt (way.step (.index (first + i)))

variable {way : Way} {entries : List (String × Value)} {items : List Value} {v w : Value}

@[simp]
theorem hideAt_here : v.hideAt (some []) = .null := by
  rw [hideAt, hide]

theorem hideAt_object (hway : way ≠ some []) :
    (Value.object entries).hideAt way = .object (hideEntries way entries) := by
  have hid : entries.map (fun entry => (entry.1, entry.2)) = entries := List.map_id _
  rcases way with _ | _ | ⟨key | index, rest⟩
  · exact congrArg Value.object hid.symm
  · exact absurd rfl hway
  · refine congrArg Value.object (List.map_congr_left fun entry _ => ?_)
    by_cases hkey : key = entry.1 <;> simp [Way.step, hkey, hideAt]
  · refine congrArg Value.object (hid.symm.trans (List.map_congr_left fun entry _ => ?_))
    simp [Way.step, hideAt]

theorem hideAt_list (hway : way ≠ some []) : (Value.list items).hideAt way = .list (hideItems way 0 items) := by
  have hid : items.mapIdx (fun _ item => item) = items := List.ext_getElem (by simp) (by simp)
  rcases way with _ | _ | ⟨key | index, rest⟩
  · exact congrArg Value.list hid.symm
  · exact absurd rfl hway
  · exact congrArg Value.list hid.symm
  · refine congrArg (fun f => Value.list (items.mapIdx f)) (funext₂ fun i item => ?_)
    by_cases hindex : index = i <;> simp [Way.step, hindex, hideAt]

theorem hideItems_cons (first : Nat) (v : Value) (items : List Value) :
    hideItems way first (v :: items) = v.hideAt (way.step (.index first)) :: hideItems way (first + 1) items := by
  unfold hideItems
  rw [List.mapIdx_cons]
  refine congrArg (_ :: List.mapIdx · items) (funext₂ fun i item => ?_)
  rw [Nat.add_right_comm, Nat.add_assoc]

theorem isObject_hideAt (hway : way ≠ some []) : (v.hideAt way).isObject = v.isObject := by
  cases v with
  | object entries => rw [hideAt_object hway]; rfl
  | list items => rw [hideAt_list hway]; rfl
  | null | bool _ | int _ | float _ | string _ | enum _ | var _ | time _ =>
    rcases way with _ | _ | ⟨key | index, rest⟩
    · rfl
    · exact absurd rfl hway
    · rfl
    · rfl

theorem isNull_hideAt (hway : way ≠ some []) : (v.hideAt way).isNull = v.isNull := by
  cases v with
  | object entries => rw [hideAt_object hway]; rfl
  | list items => rw [hideAt_list hway]; rfl
  | null | bool _ | int _ | float _ | string _ | enum _ | var _ | time _ =>
    rcases way with _ | _ | ⟨key | index, rest⟩
    · rfl
    · exact absurd rfl hway
    · rfl
    · rfl

theorem get?_hideEntries (key : String) (entries : List (String × Value)) :
    Entries.get? key (hideEntries way entries) =
      (Entries.get? key entries).map (·.hideAt (way.step (.key key))) :=
  Entries.get?_map (f := fun key v => Value.hideAt v (way.step (.key key)))

/-- The value at the end of a path, if there is one. -/
def at? : List PathSegment → Value → Option Value
  | [], v => some v
  | .key key :: rest, .object entries => (Entries.get? key entries).bind (at? rest)
  | .index index :: rest, .list items => items[index]?.bind (at? rest)
  | _ :: _, _ => none

/-- Nothing is hidden where a path parts from the way. -/
theorem at?_hideAt {path : List PathSegment} (hpath : way.walk path = none) :
    (v.hideAt way).at? path = v.at? path := by
  induction path generalizing way v with
  | nil =>
    rw [show way = none from hpath]
    rfl
  | cons segment path ih =>
    have hway : way ≠ some [] := by
      rintro rfl
      exact absurd (hpath.symm.trans (Way.walk_eq_here_iff.2 (List.nil_prefix))) (by simp)
    have hrest (v : Value) : (v.hideAt (way.step segment)).at? path = v.at? path := ih hpath
    cases v with
    | object entries =>
      rw [hideAt_object hway]
      cases segment with
      | index index => rfl
      | key key =>
        rw [at?, at?, get?_hideEntries]
        cases Entries.get? key entries with
        | none => rfl
        | some inner => exact hrest inner
    | list items =>
      rw [hideAt_list hway]
      cases segment with
      | key key => rfl
      | index index =>
        rw [at?, at?, hideItems, List.getElem?_mapIdx, Nat.zero_add]
        cases items[index]? with
        | none => rfl
        | some inner => exact hrest inner
    | null | bool _ | int _ | float _ | string _ | enum _ | var _ | time _ =>
      rcases way with _ | _ | ⟨key | index, rest⟩
      · rfl
      · exact absurd rfl hway
      · rfl
      · rfl

private theorem exists_of_isObject (h : v.isObject = true) : ∃ entries, v = .object entries := by
  cases v with
  | object entries => exact ⟨entries, rfl⟩
  | null | bool _ | int _ | float _ | string _ | enum _ | var _ | time _ | list _ => cases h

/-! ### Merging -/

/-- What becomes of two values under one key is the same beside the place if the values are. -/
private def JoinsBeside (way : Way) : Prop :=
  ∀ v v' w w' : Value, v.hideAt way = v'.hideAt way → w.hideAt way = w'.hideAt way →
    (v.join w).hideAt way = (v'.join w').hideAt way

private theorem hideEntries_put (key : String) (v : Value) (entries : List (String × Value)) :
    hideEntries way (Entries.put key v entries) =
      Entries.put key (v.hideAt (way.step (.key key))) (hideEntries way entries) := by
  induction entries with
  | nil => rfl
  | cons entry rest ih =>
    obtain ⟨other, w⟩ := entry
    by_cases hkey : other = key
    · simp [Entries.put, hideEntries, hkey]
    · simpa [Entries.put, hideEntries, hkey] using ih

private theorem hideEntries_mergeEntry_of {key : String} {entries' : List (String × Value)}
    (hjoin : JoinsBeside (way.step (.key key))) (hentries : hideEntries way entries = hideEntries way entries')
    (hv : v.hideAt (way.step (.key key)) = w.hideAt (way.step (.key key))) :
    hideEntries way (mergeEntry entries key v) = hideEntries way (mergeEntry entries' key w) := by
  have hget : (Entries.get? key entries).map (·.hideAt (way.step (.key key))) =
      (Entries.get? key entries').map (·.hideAt (way.step (.key key))) := by
    rw [← get?_hideEntries, hentries, get?_hideEntries]
  have hjoined : (joinAt (Entries.get? key entries) v).hideAt (way.step (.key key)) =
      (joinAt (Entries.get? key entries') w).hideAt (way.step (.key key)) := by
    cases hold : Entries.get? key entries with
    | none =>
      have hold' : Entries.get? key entries' = none := by simpa [hold] using hget.symm
      rw [hold']
      exact hv
    | some old =>
      rw [hold] at hget
      obtain ⟨old', hold', hsame⟩ := Option.map_eq_some_iff.1 hget.symm
      rw [hold']
      exact hjoin old old' v w hsame.symm hv
  rw [mergeEntry_eq, mergeEntry_eq, hideEntries_put, hideEntries_put, hentries, hjoined]

private theorem hideEntries_mergeEntries_of (hjoin : ∀ segment, JoinsBeside (way.step segment))
    (more : List (String × Value)) :
    ∀ {entries entries' more' : List (String × Value)}, hideEntries way entries = hideEntries way entries' →
      hideEntries way more = hideEntries way more' →
        hideEntries way (mergeEntries entries more) = hideEntries way (mergeEntries entries' more') := by
  induction more with
  | nil =>
    intro entries entries' more' hentries hmore
    obtain rfl : more' = [] := List.map_eq_nil_iff.1 hmore.symm
    simpa using hentries
  | cons entry rest ih =>
    intro entries entries' more' hentries hmore
    cases more' with
    | nil => cases hmore
    | cons entry' rest' =>
      obtain ⟨key, v⟩ := entry
      obtain ⟨key', v'⟩ := entry'
      obtain ⟨hhead, hrest⟩ := List.cons.inj hmore
      obtain ⟨rfl, hv⟩ := Prod.mk.inj hhead
      rw [mergeEntries_cons, mergeEntries_cons]
      exact ih (hideEntries_mergeEntry_of (hjoin _) hentries hv) hrest

private theorem joinsBeside (way : Way) : JoinsBeside way := by
  have hnone : JoinsBeside none := fun v v' w w' hv hw => congrArg₂ Value.join hv hw
  cases way with
  | none => exact hnone
  | some path =>
    induction path with
    | nil => exact fun v v' w w' _ _ => by rw [hideAt_here, hideAt_here]
    | cons next rest ih =>
      have hway : (some (next :: rest) : Way) ≠ some [] := by simp
      have hstep (segment : PathSegment) : JoinsBeside (Way.step segment (some (next :: rest))) := by
        unfold Way.step
        dsimp only
        split
        · exact ih
        · exact hnone
      intro v v' w w' hv hw
      have hvObject : v.isObject = v'.isObject := by rw [← isObject_hideAt hway, hv, isObject_hideAt hway]
      have hwObject : w.isObject = w'.isObject := by rw [← isObject_hideAt hway, hw, isObject_hideAt hway]
      cases hvKind : v.isObject with
      | false =>
        rw [join_of_not_object_left hvKind, join_of_not_object_left (hvObject ▸ hvKind)]
        exact hw
      | true =>
        cases hwKind : w.isObject with
        | false =>
          rw [join_of_not_object hwKind, join_of_not_object (hwObject ▸ hwKind)]
          exact hw
        | true =>
          obtain ⟨entries', rfl⟩ := exists_of_isObject (hvObject ▸ hvKind)
          obtain ⟨more', rfl⟩ := exists_of_isObject (hwObject ▸ hwKind)
          obtain ⟨entries, rfl⟩ := exists_of_isObject hvKind
          obtain ⟨more, rfl⟩ := exists_of_isObject hwKind
          rw [hideAt_object hway, hideAt_object hway, Value.object.injEq] at hv hw
          show (Value.object _).hideAt _ = (Value.object _).hideAt _
          rw [hideAt_object hway, hideAt_object hway, hideEntries_mergeEntries_of hstep more hv hw]

/-- Entries are the same beside the place after a merge if they were before it, and so are the values merged in. -/
theorem hideEntries_mergeEntry {key : String} {entries' : List (String × Value)}
    (hentries : hideEntries way entries = hideEntries way entries')
    (hv : v.hideAt (way.step (.key key)) = w.hideAt (way.step (.key key))) :
    hideEntries way (mergeEntry entries key v) = hideEntries way (mergeEntry entries' key w) :=
  hideEntries_mergeEntry_of (joinsBeside _) hentries hv

end Value

/-! ### Errors -/

/-- The path of an error leads to the place. The labels of spreads may stand anywhere on the way. -/
def PathSegment.leadsTo : List PathSegment → List PathSegment → Bool
  | [], _ => true
  | _ :: _, [] => false
  | next :: rest, segment :: path =>
    (decide (next = segment) && leadsTo rest path) || (segment.isSpreadLabel && leadsTo (next :: rest) path)

namespace Errors

/-- The errors whose paths do not lead to the place, save for reports of unknown arguments. -/
def beside (way : Way) (errors : List Error) : List Error :=
  errors.filter fun e => !e.isUnknownArgument && !way.any (PathSegment.leadsTo · e.path)

variable {way : Way} {errors errors' more : List Error}

@[simp]
theorem beside_nil : beside way [] = [] := rfl

@[simp]
theorem beside_append : beside way (errors ++ more) = beside way errors ++ beside way more :=
  List.filter_append errors more

theorem beside_here : beside (some []) errors = [] := by
  refine List.filter_eq_nil_iff.2 fun e _ => ?_
  simp [PathSegment.leadsTo]

/-- Reports of unknown arguments are left out. -/
theorem beside_unknown (type field : String) (names : List String) :
    beside way (names.map fun name => Error.ofFault (.unknownArgument type field name)) = [] := by
  refine List.filter_eq_nil_iff.2 (List.forall_mem_map.2 fun name _ => ?_)
  simp [Error.isUnknownArgument, Error.ofFault]

/-- What is left of errors of which some are left out already. -/
private theorem beside_prefixed_of {inner : Way} {segment : PathSegment}
    (h : ∀ path, inner.any (PathSegment.leadsTo · path) = true →
      way.any (PathSegment.leadsTo · (segment :: path)) = true)
    (herrors : beside inner errors = beside inner errors') :
    beside way (errors.map (.prefixed segment)) = beside way (errors'.map (.prefixed segment)) := by
  have hfilter (errors : List Error) : beside way (errors.map (.prefixed segment)) =
      ((beside inner errors).filter fun e => !way.any (PathSegment.leadsTo · (segment :: e.path))).map
        (.prefixed segment) := by
    unfold beside
    rw [List.filter_map, List.filter_filter]
    refine congrArg (List.map _) (List.filter_congr fun e _ => ?_)
    have hleads := h e.path
    show (!e.isUnknownArgument && !way.any (PathSegment.leadsTo · (segment :: e.path))) = _
    cases hinner : inner.any (PathSegment.leadsTo · e.path) with
    | true => simp [hleads hinner]
    | false => cases e.isUnknownArgument <;> simp
  rw [hfilter, hfilter, herrors]

theorem beside_prefixed (segment : PathSegment)
    (herrors : beside (way.step segment) errors = beside (way.step segment) errors') :
    beside way (errors.map (.prefixed segment)) = beside way (errors'.map (.prefixed segment)) := by
  refine beside_prefixed_of (fun path hpath => ?_) herrors
  rcases way with _ | _ | ⟨next, rest⟩
  · exact hpath
  · simp [PathSegment.leadsTo]
  · unfold Way.step at hpath
    dsimp only at hpath
    split at hpath
    · next hnext =>
      have hpath : PathSegment.leadsTo rest path = true := hpath
      simp [PathSegment.leadsTo, hnext, hpath]
    · cases hpath

/-- The label of a spread is no step on the way. -/
theorem beside_labelled (pos : Pos) (herrors : beside way errors = beside way errors') :
    beside way (errors.map (.prefixed (Scope.spreadLabel pos))) =
      beside way (errors'.map (.prefixed (Scope.spreadLabel pos))) := by
  refine beside_prefixed_of (fun path hpath => ?_) herrors
  rcases way with _ | _ | ⟨next, rest⟩
  · cases hpath
  · simp [PathSegment.leadsTo]
  · have hpath : PathSegment.leadsTo (next :: rest) path = true := hpath
    show PathSegment.leadsTo (next :: rest) (Scope.spreadLabel pos :: path) = true
    rw [PathSegment.leadsTo, Scope.isSpreadLabel_spreadLabel, hpath]
    simp

end Errors

end GraphQL
