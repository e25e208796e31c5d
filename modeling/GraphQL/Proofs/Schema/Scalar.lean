import GraphQL.Schema.Scalar

/-!
# Scalars

A scalar coerces a value to itself or to a leaf (`ScalarKind.coerceIn_cases`), and leaves as it is what it coerced
(`ScalarKind.coerceIn_coerced`). What comes out of it is `null` or in the scalar's own form
(`ScalarKind.isInternal_of_coerceIn`).
-/

namespace GraphQL

private theorem coerceInteger_eq_ok {wide : Bool} {target : String} {u v : Value}
    (h : coerceInteger wide target u = .ok v) :
    (u = .null ∧ v = .null) ∨ ∃ i, v = .int i ∧ (wide || fitsInt32 i) = true := by
  have hcheck {i : Int64} {e : CoercionError}
      (h : (if wide || fitsInt32 i then .ok (.int i) else .error e : Except CoercionError Value) = .ok v) :
      (u = .null ∧ v = .null) ∨ ∃ i, v = .int i ∧ (wide || fitsInt32 i) = true := by
    split at h
    · next hfits =>
      cases h
      exact .inr ⟨i, rfl, hfits⟩
    · cases h
  unfold coerceInteger at h
  dsimp only at h
  split at h
  · cases h
    exact .inl ⟨rfl, rfl⟩
  · exact hcheck h
  · split at h
    · exact hcheck h
    · cases h
  · cases h

private theorem coerceFloat_eq_ok {u v : Value} (h : coerceFloat u = .ok v) :
    (u = .null ∧ v = .null) ∨ ∃ x, v = .float x := by
  unfold coerceFloat at h
  split at h
  · cases h
    exact .inl ⟨rfl, rfl⟩
  · split at h
    · cases h
      exact .inr ⟨_, rfl⟩
    · cases h

private theorem ofEpoch?_offset {seconds : Int} {nanos : Nat} {t : Timestamp}
    (h : Timestamp.ofEpoch? seconds nanos = some t) : t.offset = 0 := by
  unfold Timestamp.ofEpoch? at h
  split at h
  · cases h
    rfl
  · cases h

private theorem timeOf?_offset {v : Value} {t : Timestamp} (h : timeOf? v = some t) : t.offset = 0 := by
  unfold timeOf? at h
  split at h
  · cases h
    rfl
  · exact ofEpoch?_offset h
  · unfold Timestamp.ofFloat? at h
    dsimp only at h
    split at h
    · split at h <;> exact ofEpoch?_offset h
    · split at h
      · exact ofEpoch?_offset h
      · cases h
  · obtain ⟨parsed, -, rfl⟩ := Option.map_eq_some_iff.1 h
    rfl
  · cases h

private theorem coerceTime_eq_ok {u v : Value} (h : coerceTime .time u = .ok v) :
    (u = .null ∧ v = .null) ∨ ∃ t : Timestamp, v = .time t ∧ t.offset = 0 := by
  unfold coerceTime at h
  split at h
  · cases h
    exact .inl ⟨rfl, rfl⟩
  · split at h
    · next t ht =>
      cases h
      exact .inr ⟨t, rfl, timeOf?_offset ht⟩
    · cases h

namespace ScalarKind

variable {kind : ScalarKind} {u v : Value}

/-- A scalar coerces to what it is given or to a leaf. -/
theorem coerceIn_cases (h : kind.coerceIn u = .ok v) :
    v = u ∨ (∃ i, v = .int i) ∨ (∃ x, v = .float x) ∨ (∃ text, v = .string text) ∨ ∃ t, v = .time t := by
  cases kind with
  | int | int64 =>
    rcases coerceInteger_eq_ok h with ⟨rfl, rfl⟩ | ⟨i, rfl, -⟩
    · exact .inl rfl
    · exact .inr (.inl ⟨i, rfl⟩)
  | float =>
    rcases coerceFloat_eq_ok h with ⟨rfl, rfl⟩ | ⟨x, rfl⟩
    · exact .inl rfl
    · exact .inr (.inr (.inl ⟨x, rfl⟩))
  | time =>
    rcases coerceTime_eq_ok h with ⟨rfl, rfl⟩ | ⟨t, rfl, -⟩
    · exact .inl rfl
    · exact .inr (.inr (.inr (.inr ⟨t, rfl⟩)))
  | boolean | string | id | any =>
    cases u <;> simp only [coerceIn, Except.ok.injEq, reduceCtorEq] at h <;> subst h <;> simp

/-- What a scalar coerces to it leaves as it is. -/
theorem coerceIn_coerced (h : kind.coerceIn u = .ok v) : kind.coerceIn v = .ok v := by
  cases kind with
  | int | int64 =>
    rcases coerceInteger_eq_ok h with ⟨-, rfl⟩ | ⟨i, rfl, hfits⟩
    · rfl
    · simp [coerceIn, coerceInteger, hfits]
  | float =>
    rcases coerceFloat_eq_ok h with ⟨-, rfl⟩ | ⟨x, rfl⟩ <;> rfl
  | time =>
    rcases coerceTime_eq_ok h with ⟨-, rfl⟩ | ⟨t, rfl, hoffset⟩
    · rfl
    · have huniversal : t.toUniversal = t := by
        rw [Timestamp.toUniversal, ← hoffset]
      simp [coerceIn, coerceTime, timeOf?, huniversal]
  | boolean | string | id | any =>
    cases u <;> simp only [coerceIn, Except.ok.injEq, reduceCtorEq] at h <;> subst h <;> rfl

/-- The value is in the form in which the scalar holds its values: integers in range, doubles, booleans, texts, and times
in Greenwich. A scalar without a form of its own holds all constants. -/
def isInternal : ScalarKind → Value → Bool
  | int, .int i => fitsInt32 i
  | int64, .int _ | float, .float _ | boolean, .bool _ | string, .string _ | id, .string _ => true
  | time, .time t => t.offset == 0
  | any, v => !v.isNull && !v.mentionsVar
  | _, _ => false

/-- A scalar coerces constants other than `null` to its own form. -/
theorem isInternal_of_coerceIn (hu : u.mentionsVar = false) (hnull : u ≠ .null) (h : kind.coerceIn u = .ok v) :
    kind.isInternal v = true := by
  cases kind with
  | int =>
    rcases coerceInteger_eq_ok h with ⟨hu, -⟩ | ⟨i, rfl, hfits⟩
    · exact absurd hu hnull
    · simpa [isInternal] using hfits
  | int64 =>
    rcases coerceInteger_eq_ok h with ⟨hu, -⟩ | ⟨i, rfl, -⟩
    · exact absurd hu hnull
    · rfl
  | float =>
    rcases coerceFloat_eq_ok h with ⟨hu, -⟩ | ⟨x, rfl⟩
    · exact absurd hu hnull
    · rfl
  | time =>
    rcases coerceTime_eq_ok h with ⟨hu, -⟩ | ⟨t, rfl, hoffset⟩
    · exact absurd hu hnull
    · exact beq_iff_eq.2 hoffset
  | boolean | string | id =>
    cases u <;> simp only [coerceIn, Except.ok.injEq, reduceCtorEq] at h <;> subst h <;>
      first | rfl | exact absurd rfl hnull
  | any =>
    cases h
    have hnot : u.isNull = false := by rwa [← Bool.not_eq_true, Value.isNull_iff]
    simp [isInternal, hnot, hu]

/-- A scalar leaves as it is what is in its own form. -/
theorem coerceIn_of_isInternal (h : kind.isInternal v = true) : kind.coerceIn v = .ok v := by
  unfold isInternal at h
  split at h
  · simp [coerceIn, coerceInteger, h]
  · rfl
  · rfl
  · rfl
  · rfl
  · rfl
  · next t =>
    have huniversal : t.toUniversal = t := by
      rw [Timestamp.toUniversal, ← beq_iff_eq.1 h]
    simp [coerceIn, coerceTime, timeOf?, huniversal]
  · rfl
  · cases h

/-- What is in a form of a scalar is a constant other than `null`. -/
theorem constant_of_isInternal (h : kind.isInternal v = true) : v ≠ .null ∧ v.mentionsVar = false := by
  unfold isInternal at h
  split at h
  all_goals first
    | exact ⟨nofun, rfl⟩
    | cases h
    | skip
  rw [Bool.and_eq_true, Bool.not_eq_true', Bool.not_eq_true'] at h
  refine ⟨?_, h.2⟩
  rintro rfl
  exact absurd h.1 (by decide)

/-- A scalar refers to no variables of its own. -/
theorem mentionsVar_coerceIn (hu : u.mentionsVar = false) (h : kind.coerceIn u = .ok v) : v.mentionsVar = false := by
  rcases coerceIn_cases h with rfl | ⟨i, rfl⟩ | ⟨x, rfl⟩ | ⟨text, rfl⟩ | ⟨t, rfl⟩
  · exact hu
  all_goals rfl

/-- A scalar coerces nothing else to `null`. -/
theorem eq_null_of_coerceIn (h : kind.coerceIn u = .ok .null) : u = .null := by
  rcases coerceIn_cases h with h | ⟨_, h⟩ | ⟨_, h⟩ | ⟨_, h⟩ | ⟨_, h⟩
  · exact h.symm
  all_goals cases h

/-- A scalar makes no references to variables. -/
theorem eq_var_of_coerceIn {x : String} (h : kind.coerceIn u = .ok (.var x)) : u = .var x := by
  rcases coerceIn_cases h with h | ⟨_, h⟩ | ⟨_, h⟩ | ⟨_, h⟩ | ⟨_, h⟩
  · exact h.symm
  all_goals cases h

end ScalarKind

end GraphQL
