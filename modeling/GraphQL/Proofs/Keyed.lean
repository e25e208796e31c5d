import GraphQL.Keyed

/-!
# Facts about lists with keys
-/

namespace GraphQL

/-- A list that is changed member by member stays the same if all members do. -/
theorem map_eq_self_iff {α : Type} {f : α → α} {members : List α} :
    members.map f = members ↔ ∀ a ∈ members, f a = a := by
  have h : members.map f = members.map (fun a => a) ↔ ∀ a ∈ members, f a = a := List.map_inj_left
  rwa [List.map_id'] at h

/-- What is true of all members of a list is true of those of another that looks the same. -/
theorem forall_mem_of_map_eq {α β : Type} {f : α → β} {p q : α → Prop} {as bs : List α} (h : as.map f = bs.map f)
    (hpq : ∀ a b, f a = f b → p a → q b) (hp : ∀ a ∈ as, p a) : ∀ b ∈ bs, q b := by
  intro b hb
  obtain ⟨a, ha, hab⟩ := List.mem_map.1 (h ▸ List.mem_map_of_mem (f := f) hb : f b ∈ as.map f)
  exact hpq a b hab (hp a ha)

section Maps

variable {α β γ δ : Type} {f : α → β} {g : β → γ}

/-- What is the same member by member is the same for a list. -/
theorem map_map_congr {h : α → γ} (hfg : ∀ a, g (f a) = h a) (as : List α) : (as.map f).map g = as.map h := by
  rw [List.map_map]
  exact congrArg (List.map · as) (funext hfg)

theorem map_map_comm {f' : α → δ} {g' : δ → γ} (hfg : ∀ a, g (f a) = g' (f' a)) (as : List α) :
    (as.map f).map g = (as.map f').map g' :=
  (map_map_congr hfg as).trans (map_map_congr (fun _ => rfl) as).symm

end Maps

namespace Entries

variable {α : Type} {key other : String} {a : α} {entries more : List (String × α)}

theorem get?_eq_none_iff : get? key entries = none ↔ key ∉ keys entries := by
  induction entries with
  | nil => simp [get?, keys]
  | cons entry rest ih =>
    obtain ⟨k, b⟩ := entry
    simp only [get?, keys, List.map_cons, List.mem_cons, not_or] at ih ⊢
    by_cases hk : k = key
    · simp [hk]
    · simp [hk, ih, Ne.symm hk]

theorem put_of_not_mem (h : key ∉ keys entries) : put key a entries = entries ++ [(key, a)] := by
  induction entries with
  | nil => rfl
  | cons entry rest ih =>
    obtain ⟨k, b⟩ := entry
    simp only [keys, List.map_cons, List.mem_cons, not_or] at h
    simp only [put, Ne.symm h.1, ↓reduceIte, List.cons_append]
    rw [ih h.2]

@[simp]
theorem keys_append : keys (entries ++ more) = keys entries ++ keys more := by simp [keys]

theorem nodup_keys_concat (h : (keys entries).Nodup) (hnew : contains key entries = false) :
    (keys (entries ++ [(key, a)])).Nodup := by
  have hkey : key ∉ keys entries := get?_eq_none_iff.1 (Option.isNone_iff_eq_none.1 (by simpa [contains] using hnew))
  rw [keys_append, show keys [(key, a)] = [key] from rfl]
  refine List.nodup_append.2 ⟨h, by simp, fun k hk k' hk' => ?_⟩
  rintro rfl
  exact hkey (List.mem_singleton.1 hk' ▸ hk)

theorem mem_keys_of_mem (h : (key, a) ∈ entries) : key ∈ keys entries := List.mem_map_of_mem h

theorem mem_of_get? (h : get? key entries = some a) : (key, a) ∈ entries := by
  induction entries with
  | nil => cases h
  | cons entry rest ih =>
    obtain ⟨k, b⟩ := entry
    rw [get?] at h
    split at h
    · next hk =>
      cases h
      rw [hk]
      exact List.mem_cons_self
    · exact List.mem_cons_of_mem _ (ih h)

theorem get?_of_mem (hkeys : (keys entries).Nodup) (h : (key, a) ∈ entries) : get? key entries = some a := by
  induction entries with
  | nil => cases h
  | cons entry rest ih =>
    obtain ⟨k, b⟩ := entry
    rw [keys, List.map_cons, List.nodup_cons] at hkeys
    rcases List.mem_cons.1 h with h | h
    · cases h
      simp [get?]
    · have hne : k ≠ key := by
        rintro rfl
        exact hkeys.1 (mem_keys_of_mem h)
      rw [get?, if_neg hne]
      exact ih hkeys.2 h

theorem get?_append : get? key (entries ++ more) = (get? key entries).or (get? key more) := by
  induction entries with
  | nil => simp [get?]
  | cons entry rest ih =>
    obtain ⟨k, b⟩ := entry
    by_cases hk : k = key <;> simp [get?, hk, ih]

/-- The values of entries that are changed without a look at more than their own key. -/
theorem get?_map {β : Type} {f : String → α → β} :
    get? key (entries.map fun entry => (entry.1, f entry.1 entry.2)) = (get? key entries).map (f key) := by
  induction entries with
  | nil => rfl
  | cons entry rest ih =>
    obtain ⟨k, b⟩ := entry
    by_cases hk : k = key
    · simp [get?, hk]
    · simp [get?, hk, ih]

/-! ### Putting -/

@[simp]
theorem get?_put_self : get? key (put key a entries) = some a := by
  induction entries with
  | nil => simp [put, get?]
  | cons entry rest ih =>
    obtain ⟨k, b⟩ := entry
    by_cases hk : k = key <;> simp [put, get?, hk, ih]

theorem get?_put_of_ne (h : key ≠ other) : get? other (put key a entries) = get? other entries := by
  induction entries with
  | nil => simp [put, get?, h]
  | cons entry rest ih =>
    obtain ⟨k, b⟩ := entry
    by_cases hk : k = key
    · simp [put, get?, hk, h]
    · simp [put, get?, hk, ih]

theorem mem_keys_put : other ∈ keys (put key a entries) ↔ other = key ∨ other ∈ keys entries := by
  induction entries with
  | nil => simp [put, keys]
  | cons entry rest ih =>
    obtain ⟨k, b⟩ := entry
    simp only [keys] at ih
    by_cases hk : k = key
    · simp [put, keys, hk]
    · simp only [put, hk, ↓reduceIte, keys, List.map_cons, List.mem_cons, ih]
      exact or_left_comm

theorem nodup_keys_put (h : (keys entries).Nodup) : (keys (put key a entries)).Nodup := by
  induction entries with
  | nil => simp [put, keys]
  | cons entry rest ih =>
    obtain ⟨k, b⟩ := entry
    rw [keys, List.map_cons, List.nodup_cons] at h
    by_cases hk : k = key
    · subst hk
      simpa [put, keys] using h
    · simp only [put, hk, ↓reduceIte]
      rw [keys, List.map_cons, List.nodup_cons]
      refine ⟨fun hmem => ?_, ih h.2⟩
      exact (mem_keys_put.1 hmem).elim hk h.1

theorem mem_put {b : α} (h : (other, b) ∈ put key a entries) : (other, b) = (key, a) ∨ (other, b) ∈ entries := by
  induction entries with
  | nil => exact .inl (List.mem_singleton.1 h)
  | cons entry rest ih =>
    obtain ⟨k, c⟩ := entry
    by_cases hk : k = key
    · simp only [put, hk, ↓reduceIte] at h
      exact (List.mem_cons.1 h).imp_right (List.mem_cons_of_mem _)
    · simp only [put, hk, ↓reduceIte] at h
      rcases List.mem_cons.1 h with h | h
      · exact .inr (h ▸ List.mem_cons_self)
      · exact (ih h).imp_right (List.mem_cons_of_mem _)

theorem put_put {b : α} : put key b (put key a entries) = put key b entries := by
  induction entries with
  | nil => simp [put]
  | cons entry rest ih =>
    obtain ⟨k, c⟩ := entry
    by_cases hk : k = key <;> simp [put, hk, ih]

/-- A key that has a place keeps it, whatever else is put. -/
theorem put_comm {b : α} (h : key ∈ keys entries) (hne : key ≠ other) :
    put key a (put other b entries) = put other b (put key a entries) := by
  induction entries with
  | nil => cases h
  | cons entry rest ih =>
    obtain ⟨k, c⟩ := entry
    rw [keys, List.map_cons, List.mem_cons] at h
    by_cases hk : k = key
    · subst hk
      simp [put, hne]
    · have hrest : key ∈ keys rest := h.resolve_left (Ne.symm hk)
      by_cases ho : k = other
      · subst ho
        simp [put, hk]
      · simp [put, hk, ho, ih hrest]

theorem put_self (h : get? key entries = some a) : put key a entries = entries := by
  induction entries with
  | nil => cases h
  | cons entry rest ih =>
    obtain ⟨k, b⟩ := entry
    rw [get?] at h
    split at h
    · next hk =>
      cases h
      simp [put, hk]
    · next hk => simp [put, hk, ih h]

end Entries

namespace Members

variable {α : Type} [HasName α] {name : String} {a : α} {members : List α}

/-- No two members have the same name. -/
def Distinct (members : List α) : Prop := (names members).Nodup

theorem contains_iff : contains name members = true ↔ name ∈ names members := by simp [contains, names]

theorem Distinct.nil : Distinct ([] : List α) := List.nodup_nil

theorem Distinct.concat (h : Distinct members) (ha : contains (HasName.name a) members = false) :
    Distinct (members ++ [a]) := by
  have hnot : HasName.name a ∉ names members := by
    rw [← contains_iff, ha]
    exact Bool.false_ne_true
  unfold Distinct names at h ⊢
  rw [List.map_append, List.nodup_append]
  refine ⟨h, by simp, ?_⟩
  rintro other hother found hfound rfl
  obtain rfl := List.mem_singleton.1 hfound
  exact hnot hother

theorem Distinct.get?_of_mem (h : Distinct members) (ha : a ∈ members) : get? (HasName.name a) members = some a := by
  induction members with
  | nil => cases ha
  | cons b rest ih =>
    unfold Distinct names at h ih
    rw [List.map_cons, List.nodup_cons] at h
    rcases List.mem_cons.1 ha with rfl | ha
    · simp [get?]
    · have hne : HasName.name b ≠ HasName.name a := fun hname => h.1 (hname ▸ List.mem_map_of_mem ha)
      unfold get? at ih ⊢
      rw [List.find?_cons_of_neg (by simpa using hne)]
      exact ih h.2 ha

theorem get?_erase (name other : String) (members : List α) :
    get? name (erase other members) = if name = other then none else get? name members := by
  unfold get? erase
  rw [List.find?_filter]
  split
  · next h =>
    subst h
    rw [List.find?_eq_none]
    intro a _
    by_cases ha : HasName.name a = name <;> simp [ha]
  · next h =>
    congr 1
    funext a
    by_cases ha : HasName.name a = name
    · simp [ha, h]
    · simp [ha]

theorem get?_of_erase {other : String} (h : get? name (erase other members) = some a) : get? name members = some a := by
  rw [get?_erase] at h
  split at h
  · cases h
  · exact h

theorem get?_isSome : (get? name members).isSome = contains name members := by
  unfold get? contains
  rw [Bool.eq_iff_iff, List.find?_isSome, List.any_eq_true]

theorem get?_map {f : α → α} (hf : ∀ a, HasName.name (f a) = HasName.name a) :
    get? name (members.map f) = (get? name members).map f := by
  unfold get?
  rw [List.find?_map]
  simp only [Function.comp_def, hf]

theorem contains_map {f : α → α} (hf : ∀ a, HasName.name (f a) = HasName.name a) :
    contains name (members.map f) = contains name members := by simp [contains, Function.comp_def, hf]

theorem put_map {f : α → α} (hf : ∀ a, HasName.name (f a) = HasName.name a) :
    put (f a) (members.map f) = (put a members).map f := by
  induction members with
  | nil => rfl
  | cons b rest ih =>
    rw [List.map_cons, put, put, hf, hf]
    split
    · rfl
    · rw [ih, List.map_cons]

/-- A member that has a place keeps it, whatever else is put. -/
theorem put_comm {b : α} (h : HasName.name a ∈ names members) (hne : HasName.name a ≠ HasName.name b) :
    put a (put b members) = put b (put a members) := by
  induction members with
  | nil => cases h
  | cons c rest ih =>
    rw [names, List.map_cons, List.mem_cons] at h
    by_cases hc : HasName.name c = HasName.name a
    · simp [put, hc, hne]
    · have hrest : HasName.name a ∈ names rest := h.resolve_left (Ne.symm hc)
      by_cases hb : HasName.name c = HasName.name b
      · simp [put, hb, hne.symm]
      · simp [put, hc, hb, ih hrest]

theorem put_put {b : α} (h : HasName.name b = HasName.name a) : put b (put a members) = put b members := by
  induction members with
  | nil => simp [put, h]
  | cons c rest ih =>
    by_cases hc : HasName.name c = HasName.name a
    · simp [put, hc, h]
    · simp [put, hc, h, ih]

theorem put_self (h : get? (HasName.name a) members = some a) : put a members = members := by
  induction members with
  | nil => cases h
  | cons b rest ih =>
    unfold put
    by_cases hb : HasName.name b = HasName.name a
    · simp_all [get?]
    · rw [if_neg hb, ih]
      simpa [get?, hb] using h

/-- A member takes the place of the one that has its name. -/
theorem put_append_cons {b : α} {rest : List α} (hname : HasName.name b = HasName.name a)
    (hnew : HasName.name a ∉ names members) : put a (members ++ b :: rest) = members ++ a :: rest := by
  induction members with
  | nil => simp [put, hname]
  | cons c members ih =>
    rw [names, List.map_cons, List.mem_cons, not_or] at hnew
    rw [List.cons_append, put, if_neg (Ne.symm hnew.1), ih hnew.2, List.cons_append]

theorem contains_put {other : String} :
    contains other (put a members) = (contains other members || HasName.name a == other) := by
  induction members with
  | nil => simp [put, contains]
  | cons b rest ih =>
    unfold put
    split
    · next hname => simp [contains, hname, Bool.or_comm]
    · simp only [contains, List.any_cons] at ih ⊢
      rw [ih, Bool.or_assoc]

theorem get?_put : get? name (put a members) = if HasName.name a = name then some a else get? name members := by
  unfold get?
  induction members with
  | nil => by_cases h : HasName.name a = name <;> simp [put, h]
  | cons b rest ih =>
    unfold put
    by_cases hb : HasName.name b = HasName.name a
    · by_cases h : HasName.name a = name <;> simp [hb, h]
    · rw [if_neg hb]
      by_cases h : HasName.name b = name
      · have hne : HasName.name a ≠ name := fun ha => hb (h.trans ha.symm)
        simp [h, hne]
      · rw [List.find?_cons_of_neg (by simpa using h), List.find?_cons_of_neg (by simpa using h), ih]

theorem mem_put {b : α} (h : b ∈ put a members) : b = a ∨ b ∈ members := by
  induction members with
  | nil => exact .inl (List.mem_singleton.1 h)
  | cons c rest ih =>
    unfold put at h
    split at h
    · rcases List.mem_cons.1 h with rfl | h
      · exact .inl rfl
      · exact .inr (List.mem_cons_of_mem _ h)
    · rcases List.mem_cons.1 h with rfl | h
      · exact .inr List.mem_cons_self
      · exact (ih h).imp_right (List.mem_cons_of_mem _)

theorem names_map {f : α → α} (hf : ∀ a, HasName.name (f a) = HasName.name a) :
    names (members.map f) = names members := by simp [names, Function.comp_def, hf]

theorem distinct_map_iff {f : α → α} (hf : ∀ a, HasName.name (f a) = HasName.name a) :
    Distinct (members.map f) ↔ Distinct members := by
  unfold Distinct
  rw [names_map hf]

/-- Members that are changed save for their names stay distinct. -/
theorem Distinct.map (h : Distinct members) {f : α → α} (hf : ∀ a, HasName.name (f a) = HasName.name a) :
    Distinct (members.map f) := (distinct_map_iff hf).2 h

theorem Distinct.perm {others : List α} (h : Distinct members) (hperm : members.Perm others) : Distinct others :=
  (hperm.map HasName.name).nodup_iff.1 h

/-- In which order members come does not matter if no name comes twice. -/
theorem Distinct.get?_perm {others : List α} (h : Distinct members) (hperm : members.Perm others) (name : String) :
    get? name members = get? name others := by
  have hfound {as bs : List α} {a : α} (hbs : Distinct bs) (hsub : ∀ a ∈ as, a ∈ bs) (ha : get? name as = some a) :
      get? name bs = some a := name_of_get? ha ▸ hbs.get?_of_mem (hsub a (mem_of_get? ha))
  cases hone : get? name members with
  | some a => exact (hfound (h.perm hperm) (fun _ => hperm.mem_iff.1) hone).symm
  | none =>
    cases hother : get? name others with
    | none => rfl
    | some b => exact hone.symm.trans (hfound h (fun _ => hperm.mem_iff.2) hother)

theorem names_put (h : HasName.name a ∈ names members) : names (put a members) = names members := by
  induction members with
  | nil => cases h
  | cons b rest ih =>
    unfold put
    split
    · next hname => simp only [names, List.map_cons, hname]
    · next hname =>
      have hrest := ih ((List.mem_cons.1 h).resolve_left (Ne.symm hname))
      simp only [names, List.map_cons] at hrest ⊢
      rw [hrest]

/-- A member that is put takes the place of the one with its name. -/
theorem Distinct.put_perm_cons (h : Distinct members) : (put a members).Perm (a :: erase (HasName.name a) members) := by
  induction members with
  | nil => exact .refl _
  | cons b rest ih =>
    have hrest : Distinct rest := (List.nodup_cons.1 h).2
    have hb : HasName.name b ∉ names rest := (List.nodup_cons.1 h).1
    unfold put erase
    by_cases hname : HasName.name b = HasName.name a
    · have hkept : rest.filter (HasName.name · != HasName.name a) = rest := by
        refine List.filter_eq_self.2 fun c hc => bne_iff_ne.2 ?_
        rintro heq
        exact hb (hname.trans heq.symm ▸ List.mem_map_of_mem hc)
      rw [if_pos hname, List.filter_cons_of_neg (by simpa using hname), hkept]
    · rw [if_neg hname, List.filter_cons_of_pos (by simpa using hname)]
      exact ((ih hrest).cons b).trans (.swap a b _)

/-- In which order members come does not matter to what a member that is put replaces. -/
theorem Distinct.put_perm {others : List α} (h : Distinct members) (hperm : members.Perm others) :
    (put a members).Perm (put a others) :=
  h.put_perm_cons.trans (((hperm.filter _).cons a).trans (h.perm hperm).put_perm_cons.symm)

theorem Distinct.of_append {others : List α} (h : Distinct (members ++ others)) : Distinct members := by
  unfold Distinct names at h ⊢
  rw [List.map_append] at h
  exact (List.nodup_append.1 h).1

/-- What comes later has a new name. -/
theorem Distinct.new {rest : List α} (h : Distinct (members ++ a :: rest)) :
    contains (HasName.name a) members = false := by
  rw [Bool.eq_false_iff, ne_eq, contains_iff]
  intro hmem
  unfold Distinct names at h
  rw [List.map_append, List.nodup_append] at h
  exact h.2.2 _ hmem _ List.mem_cons_self rfl

end Members

end GraphQL
