import GraphQL.Execution.Selection
import GraphQL.Proofs.Keyed

/-!
# Merging values

`Value.join` is what merging makes of two values under one key: objects are merged entry by entry, and otherwise the
later value takes the place of the earlier one. Joining is not associative, since a value that is no object in the
middle cuts off what was before it. It is so for values that are `Alike`: no object is ever joined with something else.
-/

namespace GraphQL

namespace Value

/-- The value is an object. -/
def isObject : Value → Bool
  | object _ => true
  | _ => false

/-- The value is a list. -/
def isList : Value → Bool
  | list _ => true
  | _ => false

/-- In the value no object has two entries with the same key. -/
inductive Keyed : Value → Prop
  | plain {v : Value} (hobject : v.isObject = false) (hlist : v.isList = false) : Keyed v
  | list {items : List Value} (h : ∀ v ∈ items, Keyed v) : Keyed (.list items)
  | object {entries : List (String × Value)} (hkeys : (Entries.keys entries).Nodup)
      (h : ∀ key v, (key, v) ∈ entries → Keyed v) : Keyed (.object entries)

/-- Neither value is an object, or both are, and values under the same key are alike again. -/
inductive Alike : Value → Value → Prop
  | plain {v w : Value} (hv : v.isObject = false) (hw : w.isObject = false) : Alike v w
  | object {entries more : List (String × Value)}
      (h : ∀ key v w, (key, v) ∈ entries → (key, w) ∈ more → Alike v w) : Alike (.object entries) (.object more)

/-- What becomes of two values that are put under the same key. -/
def join : Value → Value → Value
  | object entries, object more => object (mergeEntries entries more)
  | _, v => v

/-- What becomes of a value that is put where there may be one already. -/
def joinAt : Option Value → Value → Value
  | some v, w => v.join w
  | none, w => w

end Value

/-! ### Entries -/

theorem mergeEntry_eq (entries : List (String × Value)) (key : String) (v : Value) :
    mergeEntry entries key v = Entries.put key (Value.joinAt (Entries.get? key entries) v) entries := by
  cases v with
  | object more =>
    rw [mergeEntry]
    cases Entries.get? key entries with
    | none => rfl
    | some existing => cases existing <;> rfl
  | null | bool _ | int _ | float _ | string _ | enum _ | var _ | time _ | list _ =>
    cases Entries.get? key entries with
    | none => simp [mergeEntry, Value.joinAt]
    | some existing => cases existing <;> simp [mergeEntry, Value.joinAt, Value.join]

section Entries

variable {key other : String} {v w : Value} {entries more : List (String × Value)}

@[simp]
theorem mergeEntries_nil (entries : List (String × Value)) : mergeEntries entries [] = entries := by rw [mergeEntries]

theorem mergeEntries_cons (entries : List (String × Value)) (key : String) (v : Value)
    (rest : List (String × Value)) :
    mergeEntries entries ((key, v) :: rest) = mergeEntries (mergeEntry entries key v) rest := by
  rw [mergeEntries]

theorem mergeEntries_append (entries more rest : List (String × Value)) :
    mergeEntries entries (more ++ rest) = mergeEntries (mergeEntries entries more) rest := by
  induction more generalizing entries with
  | nil => simp
  | cons entry more ih =>
    obtain ⟨key, v⟩ := entry
    rw [List.cons_append, mergeEntries_cons, mergeEntries_cons, ih]

theorem mem_keys_mergeEntry : other ∈ Entries.keys (mergeEntry entries key v) ↔
    other = key ∨ other ∈ Entries.keys entries := by
  rw [mergeEntry_eq]
  exact Entries.mem_keys_put

theorem get?_mergeEntry_of_ne (h : key ≠ other) :
    Entries.get? other (mergeEntry entries key v) = Entries.get? other entries := by
  rw [mergeEntry_eq]
  exact Entries.get?_put_of_ne h

theorem nodup_mergeEntries (h : (Entries.keys entries).Nodup) (more : List (String × Value)) :
    (Entries.keys (mergeEntries entries more)).Nodup := by
  induction more generalizing entries with
  | nil => simpa using h
  | cons entry more ih =>
    obtain ⟨key, v⟩ := entry
    rw [mergeEntries_cons, mergeEntry_eq]
    exact ih (Entries.nodup_keys_put h)

/-- Entries with new keys are put behind those that are there. -/
theorem mergeEntries_of_nodup (h : (Entries.keys (entries ++ more)).Nodup) :
    mergeEntries entries more = entries ++ more := by
  induction more generalizing entries with
  | nil => rw [mergeEntries_nil, List.append_nil]
  | cons entry more ih =>
    obtain ⟨key, v⟩ := entry
    have hkeys : (Entries.keys (entries ++ [(key, v)] ++ more)).Nodup := by rwa [List.append_assoc]
    have hnew : key ∉ Entries.keys entries := by
      rw [Entries.keys_append, Entries.keys_append] at hkeys
      exact fun hkey => (List.nodup_append.1 (List.nodup_append.1 hkeys).1).2.2 key hkey key List.mem_cons_self rfl
    have hput : mergeEntry entries key v = entries ++ [(key, v)] := by
      rw [mergeEntry_eq, Entries.get?_eq_none_iff.2 hnew, Entries.put_of_not_mem hnew]
      rfl
    rw [mergeEntries_cons, hput, ih hkeys, List.append_assoc]
    rfl

/-- Merging into a key twice joins what is merged in. -/
theorem mergeEntry_mergeEntry (entries : List (String × Value)) (key : String) (v w : Value) :
    mergeEntry (mergeEntry entries key v) key w =
      Entries.put key ((Value.joinAt (Entries.get? key entries) v).join w) entries := by
  rw [mergeEntry_eq, mergeEntry_eq, Entries.get?_put_self, Entries.put_put]
  rfl

/-- What is merged into a key that has a place may come before or after what is merged into others. -/
theorem mergeEntries_comm (hkey : key ∈ Entries.keys entries) (hnot : key ∉ Entries.keys more) :
    mergeEntry (mergeEntries entries more) key v = mergeEntries (mergeEntry entries key v) more := by
  induction more generalizing entries with
  | nil => simp
  | cons entry more ih =>
    obtain ⟨other, w⟩ := entry
    rw [Entries.keys, List.map_cons, List.mem_cons, not_or] at hnot
    have hswap : mergeEntry (mergeEntry entries other w) key v = mergeEntry (mergeEntry entries key v) other w := by
      rw [mergeEntry_eq _ key, get?_mergeEntry_of_ne (Ne.symm hnot.1), mergeEntry_eq _ other,
        mergeEntry_eq _ other w, get?_mergeEntry_of_ne hnot.1, mergeEntry_eq, Entries.put_comm hkey hnot.1]
    rw [mergeEntries_cons, mergeEntries_cons, ← hswap]
    exact ih (mem_keys_mergeEntry.2 (.inr hkey)) hnot.2

/-- A property of values that joining keeps is one of everything that is merged. -/
theorem of_mem_mergeEntries {p : Value → Prop} (hentries : ∀ v, (key, v) ∈ entries → p v)
    (hmore : ∀ w, (key, w) ∈ more → p w ∧ ∀ v, p v → p (v.join w)) (h : (key, v) ∈ mergeEntries entries more) :
    p v := by
  induction more generalizing entries with
  | nil =>
    rw [mergeEntries_nil] at h
    exact hentries v h
  | cons entry more ih =>
    obtain ⟨other, w⟩ := entry
    rw [mergeEntries_cons] at h
    refine ih (fun u hu => ?_) (fun u hu => hmore u (List.mem_cons_of_mem _ hu)) h
    rw [mergeEntry_eq] at hu
    rcases Entries.mem_put hu with hput | hput
    · cases hput
      obtain ⟨hw, hjoin⟩ := hmore w List.mem_cons_self
      cases hexisting : Entries.get? key entries with
      | none => exact hw
      | some existing => exact hjoin existing (hentries existing (Entries.mem_of_get? hexisting))
    · exact hentries u hput

/-- The joining of three values may start with the last two. -/
def Value.Associates (v w : Value) : Prop := ∀ u : Value, (u.join v).join w = u.join (v.join w)

/-- Two values that are put under a key are put as one, if nothing is put under it in between. -/
theorem mergeEntry_contract (before : List (String × Value)) (hnot : key ∉ Entries.keys more)
    (hassoc : v.Associates w) :
    mergeEntry (mergeEntries (mergeEntry before key v) more) key w =
      mergeEntries (mergeEntry before key (v.join w)) more := by
  have hput : mergeEntry (mergeEntry before key v) key w = mergeEntry before key (v.join w) := by
    rw [mergeEntry_mergeEntry, mergeEntry_eq]
    cases Entries.get? key before with
    | none => rfl
    | some u => rw [Value.joinAt, Value.joinAt, hassoc u]
  rw [mergeEntries_comm (mem_keys_mergeEntry.2 (.inl rfl)) hnot, hput]

/-- An entry may be merged before or after its object is. -/
theorem mergeEntries_mergeEntry (before : List (String × Value)) (hkeys : (Entries.keys entries).Nodup)
    (hassoc : ∀ v, Entries.get? key entries = some v → v.Associates w) :
    mergeEntries before (mergeEntry entries key w) = mergeEntry (mergeEntries before entries) key w := by
  induction entries generalizing before with
  | nil =>
    rw [mergeEntry_eq]
    show mergeEntries before [(key, w)] = _
    rw [mergeEntries_cons, mergeEntries_nil, mergeEntries_nil]
  | cons entry rest ih =>
    obtain ⟨other, v⟩ := entry
    rw [Entries.keys, List.map_cons, List.nodup_cons] at hkeys
    by_cases hother : other = key
    · subst hother
      have hhere : mergeEntry ((other, v) :: rest) other w = (other, v.join w) :: rest := by
        simp [mergeEntry_eq, Entries.get?, Entries.put, Value.joinAt]
      rw [hhere, mergeEntries_cons, mergeEntries_cons]
      exact (mergeEntry_contract before hkeys.1 (hassoc v (by simp [Entries.get?]))).symm
    · have hrest : mergeEntry ((other, v) :: rest) key w = (other, v) :: mergeEntry rest key w := by
        simp [mergeEntry_eq, Entries.get?, Entries.put, hother]
      have hget : Entries.get? key ((other, v) :: rest) = Entries.get? key rest := by simp [Entries.get?, hother]
      rw [hget] at hassoc
      rw [hrest, mergeEntries_cons, mergeEntries_cons]
      exact ih _ hkeys.2 hassoc

/-- Merging into merged entries, where joining under each key is associative. -/
theorem mergeEntries_assoc (before : List (String × Value)) (hkeys : (Entries.keys entries).Nodup)
    (hmore : (Entries.keys more).Nodup)
    (hassoc : ∀ key v w, (key, v) ∈ entries → (key, w) ∈ more → v.Associates w) :
    mergeEntries (mergeEntries before entries) more = mergeEntries before (mergeEntries entries more) := by
  induction more generalizing entries with
  | nil => simp
  | cons entry more ih =>
    obtain ⟨key, w⟩ := entry
    rw [Entries.keys, List.map_cons, List.nodup_cons] at hmore
    have hhere := fun v hv => hassoc key v w (Entries.mem_of_get? hv) List.mem_cons_self
    rw [mergeEntries_cons, mergeEntries_cons, ← mergeEntries_mergeEntry before hkeys hhere]
    refine ih (by rw [mergeEntry_eq]; exact Entries.nodup_keys_put hkeys) hmore.2 fun other v u hv hu => ?_
    rw [mergeEntry_eq] at hv
    rcases Entries.mem_put hv with hput | hput
    · cases hput
      exact absurd (Entries.mem_keys_of_mem hu) hmore.1
    · exact hassoc other v u hput (List.mem_cons_of_mem _ hu)

end Entries

/-! ### Joining -/

namespace Value

variable {u v w : Value}

theorem join_of_not_object (h : w.isObject = false) : v.join w = w := by
  cases v <;> cases w <;> first | rfl | cases h

theorem join_of_not_object_left (h : v.isObject = false) : v.join w = w := by
  cases v <;> cases w <;> first | rfl | cases h

theorem Keyed.join (hv : v.Keyed) (hw : w.Keyed) : (v.join w).Keyed := by
  induction hw generalizing v with
  | plain hobject hlist =>
    rw [join_of_not_object hobject]
    exact .plain hobject hlist
  | list h =>
    rw [join_of_not_object rfl]
    exact .list h
  | object hkeys h ih =>
    cases hv with
    | plain hobject _ =>
      rw [join_of_not_object_left hobject]
      exact .object hkeys h
    | list _ => exact .object hkeys h
    | object hkeys' h' =>
      refine .object (nodup_mergeEntries hkeys' _) fun key u hu => ?_
      exact of_mem_mergeEntries (h' key) (fun w hw => ⟨h key w hw, fun v hv => ih key w hw hv⟩) hu

/-- What is merged from entries without repeated keys has none. -/
theorem keyed_mergeEntries {entries : List (String × Value)} (h : ∀ key v, (key, v) ∈ entries → v.Keyed) :
    (object (mergeEntries [] entries)).Keyed := by
  have hnil : (Entries.keys ([] : List (String × Value))).Nodup := List.nodup_nil
  refine .object (nodup_mergeEntries hnil _) fun key u hu => ?_
  refine of_mem_mergeEntries (fun v hv => absurd hv (by simp)) (fun w hw => ⟨h key w hw, fun v hv => ?_⟩) hu
  exact hv.join (h key w hw)

theorem Keyed.alike_self (h : v.Keyed) : v.Alike v := by
  induction h with
  | plain hobject _ => exact .plain hobject hobject
  | list _ => exact .plain rfl rfl
  | object hkeys _ ih =>
    refine .object fun key u w hu hw => ?_
    cases (Entries.get?_of_mem hkeys hu).symm.trans (Entries.get?_of_mem hkeys hw)
    exact ih key u hu

theorem Alike.symm (h : v.Alike w) : w.Alike v := by
  induction h with
  | plain hv hw => exact .plain hw hv
  | object _ ih => exact .object fun key v w hv hw => ih key w v hw hv

/-- What is alike to two values is so to what they become. -/
theorem Alike.join (hv : v.Alike w) (hu : u.Alike w) : (u.join v).Alike w := by
  induction hv generalizing u with
  | plain hv hw =>
    rw [join_of_not_object hv]
    exact .plain hv hw
  | object h ih =>
    cases hu with
    | plain hobject _ =>
      rw [join_of_not_object_left hobject]
      exact .object h
    | object h' =>
      refine .object fun key x y hx hy => ?_
      refine @of_mem_mergeEntries _ _ _ _ (fun x => x.Alike y) (fun v hv => h' key v y hv hy) (fun v hv => ?_) hx
      exact ⟨h key v y hv hy, fun u hu => ih key v y hv hy hu⟩

/-- Joining is associative where values are alike. -/
theorem Alike.associates (h : v.Alike w) (hv : v.Keyed) (hw : w.Keyed) : v.Associates w := by
  induction h with
  | plain _ hobject =>
    intro u
    simp only [join_of_not_object hobject]
  | object _ ih =>
    intro u
    cases hv with
    | plain hobject _ => cases hobject
    | object hkeys hv =>
      cases hw with
      | plain hobject _ => cases hobject
      | object hkeys' hw =>
        cases hu : u.isObject with
        | false => rw [join_of_not_object_left hu, join_of_not_object_left hu]
        | true =>
          cases u with
          | object before =>
            simp only [Value.join]
            rw [mergeEntries_assoc before hkeys hkeys' fun key v w hv' hw' =>
              ih key v w hv' hw' (hv key v hv') (hw key w hw')]
          | _ => cases hu

/-- A value joined with itself does not change. -/
theorem Keyed.join_self (h : v.Keyed) : v.join v = v := by
  induction h with
  | plain hobject _ => exact join_of_not_object hobject
  | list _ => rfl
  | @object entries hkeys _ ih =>
    have hall : ∀ more : List (String × Value), (∀ key v, (key, v) ∈ more → (key, v) ∈ entries) →
        mergeEntries entries more = entries := by
      intro more hmore
      induction more with
      | nil => simp
      | cons entry more ihm =>
        obtain ⟨key, v⟩ := entry
        have hmem := hmore key v List.mem_cons_self
        have hget := Entries.get?_of_mem hkeys hmem
        rw [mergeEntries_cons, mergeEntry_eq, hget, joinAt, ih key v hmem, Entries.put_self hget]
        exact ihm fun key v hv => hmore key v (List.mem_cons_of_mem _ hv)
    rw [Value.join, hall entries fun key v hv => hv]

end Value

/-! ### Merging what is alike -/

/-- The values under one key are alike. -/
def EntriesAlike (entries : List (String × Value)) : Prop :=
  entries.Pairwise fun a b => a.1 = b.1 → a.2.Alike b.2

/-- Entries that are alike may be merged with each other first. -/
theorem mergeEntries_alike (before : List (String × Value)) {entries more : List (String × Value)}
    (hkeyed : (Value.object entries).Keyed) (hmore : ∀ key v, (key, v) ∈ more → v.Keyed) (halike : EntriesAlike more)
    (h : ∀ key v w, (key, v) ∈ entries → (key, w) ∈ more → v.Alike w) :
    mergeEntries (mergeEntries before entries) more = mergeEntries before (mergeEntries entries more) := by
  induction more generalizing entries with
  | nil => simp
  | cons entry more ih =>
    obtain ⟨key, w⟩ := entry
    obtain ⟨hfirst, hrest⟩ := List.pairwise_cons.1 halike
    have hw := hmore key w List.mem_cons_self
    cases hkeyed with
    | plain hobject _ => cases hobject
    | object hkeys hentries =>
      have hassoc : ∀ v, Entries.get? key entries = some v → v.Associates w := fun v hv =>
        have hmem := Entries.mem_of_get? hv
        (h key v w hmem List.mem_cons_self).associates (hentries key v hmem) hw
      have hmem : ∀ other v, (other, v) ∈ mergeEntries entries [(key, w)] →
          v.Keyed ∧ ∀ u, (other, u) ∈ more → v.Alike u := by
        intro other v hv
        refine @of_mem_mergeEntries _ _ _ _ (fun v => v.Keyed ∧ ∀ u, (other, u) ∈ more → v.Alike u)
          (fun v hv => ⟨hentries other v hv, fun u hu => h other v u hv (List.mem_cons_of_mem _ hu)⟩)
          (fun v hv => ?_) hv
        cases List.mem_singleton.1 hv
        have hu := fun u (hu : (key, u) ∈ more) => hfirst (key, u) hu rfl
        exact ⟨⟨hw, hu⟩, fun v hv => ⟨hv.1.join hw, fun u hmem => (hu u hmem).join (hv.2 u hmem)⟩⟩
      rw [mergeEntries_cons, mergeEntries_cons, ← mergeEntries_mergeEntry before hkeys hassoc]
      rw [mergeEntries_cons, mergeEntries_nil] at hmem
      refine ih ?_ (fun other v hv => hmore other v (List.mem_cons_of_mem _ hv)) hrest
        fun other v u hv hu => (hmem other v hv).2 u hu
      exact .object (by rw [mergeEntry_eq]; exact Entries.nodup_keys_put hkeys) fun other v hv => (hmem other v hv).1

/-- Merging entries that are alike into others. -/
theorem mergeEntries_append_alike {entries more : List (String × Value)}
    (hmore : ∀ key v, (key, v) ∈ more → v.Keyed) (halike : EntriesAlike more) :
    mergeEntries [] (entries ++ more) = mergeEntries (mergeEntries [] entries) (mergeEntries [] more) := by
  have hnil : (Value.object []).Keyed := .object List.nodup_nil fun key v hv => absurd hv (by simp)
  rw [mergeEntries_append, ← mergeEntries_alike _ hnil hmore halike fun key v w hv => absurd hv (by simp),
    mergeEntries_nil]

/-- Objects are alike if all that is merged into them is. -/
theorem Value.alike_mergeEntries {entries more : List (String × Value)}
    (h : ∀ key v w, (key, v) ∈ entries → (key, w) ∈ more → v.Alike w) :
    (Value.object (mergeEntries [] entries)).Alike (.object (mergeEntries [] more)) := by
  refine .object fun key v w hv hw => ?_
  have hleft : ∀ u, (key, u) ∈ more → v.Alike u := by
    refine @of_mem_mergeEntries _ _ _ _ (fun v => ∀ u, (key, u) ∈ more → v.Alike u) (fun v hv => absurd hv (by simp))
      (fun x hx => ?_) hv
    exact ⟨fun u hu => h key x u hx hu, fun y hy u hu => (h key x u hx hu).join (hy u hu)⟩
  refine @of_mem_mergeEntries _ _ _ _ (fun w => v.Alike w) (fun w hw => absurd hw (by simp)) (fun x hx => ?_) hw
  exact ⟨hleft x hx, fun y hy => ((hleft x hx).symm.join hy.symm).symm⟩

end GraphQL
