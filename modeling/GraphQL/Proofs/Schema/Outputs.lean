import GraphQL.Proofs.Number.Literal
import GraphQL.Proofs.Number.Rounding
import GraphQL.Proofs.Schema.Scalar
import GraphQL.Proofs.Time.Timestamp
import GraphQL.Value.Json

/-!
# The results of scalars

What a scalar has taken in it gives out, and it takes in again what it gave out, but for times that have no text of their
own (`ScalarKind.coerceIn_coerceOut`). As JSON the result of a scalar is itself, but for doubles that are not finite
(`ScalarKind.coerceOut_json`).
-/

namespace GraphQL

/-! ### Texts other than `null` -/

namespace Json

private theorem head_toDigits (n : Nat) : ∃ c ∈ (Nat.toDigits 10 n).head?, c.isDigit := by
  obtain ⟨c, cs, hcs⟩ := List.exists_cons_of_ne_nil (Nat.toDigits_ne_nil : Nat.toDigits 10 n ≠ [])
  refine ⟨c, by rw [hcs]; rfl, ?_⟩
  exact Nat.isDigit_of_mem_toDigits (by decide) (by decide) (hcs ▸ List.mem_cons_self)

/-- The digits of a double begin with a digit, in any form. -/
private theorem head_writeDigits {x : DecimalDigits} (hlt : ∀ d ∈ x.digits, d < 10) :
    ∃ c ∈ (writeDigits x).head?, c.isDigit := by
  have hpositional := (DecimalDigits.positional_isNumeral x hlt).1
  unfold writeDigits
  split
  · split
    · exact hpositional
    · obtain ⟨c, hc, hdigit⟩ := hpositional
      exact ⟨c, by rw [List.head?_append, Option.mem_def.1 hc]; rfl, hdigit⟩
  · unfold DecimalDigits.scientific
    dsimp only
    split
    · exact ⟨'0', rfl, by decide⟩
    · next d hd => exact ⟨_, rfl, DecimalDigits.text_isDigit hlt _ (by simp [DecimalDigits.text, hd])⟩
    · next d ds hd => exact ⟨_, rfl, DecimalDigits.text_isDigit hlt _ (by simp [DecimalDigits.text, hd])⟩

/-- JSON other than `null` is written with another letter in front. -/
private theorem head_write {json : Json} (hnull : json ≠ .null) (hfinite : ∀ x, json = .float x → x.isFinite = true)
    (indent level : Nat) : (json.write indent level).head? ≠ some 'n' := by
  have hcons {c : Char} {cs : List Char} (h : c ≠ 'n') : (c :: cs).head? ≠ some 'n' := fun hn => h (Option.some.inj hn)
  have hdigit {cs : List Char} (h : ∃ c ∈ cs.head?, c.isDigit) : cs.head? ≠ some 'n' := by
    obtain ⟨c, hc, hdigit⟩ := h
    obtain ⟨rest, rfl⟩ := List.head?_eq_some_iff.1 hc
    refine hcons ?_
    rintro rfl
    exact absurd hdigit (by decide)
  cases json with
  | null => exact absurd rfl hnull
  | bool b =>
    rw [write]
    cases b <;> decide
  | int i =>
    rw [write]
    unfold IntText.display
    dsimp only
    split
    · rw [String.toList_ofList]
      exact hcons (by decide)
    · rw [String.toList_ofList]
      exact hdigit (head_toDigits _)
  | float x =>
    rw [write]
    cases x with
    | finite negative m e h =>
      unfold writeFloat
      dsimp only
      split
      · exact hcons (by decide)
      · split
        · exact hcons (by decide)
        · exact hdigit (head_writeDigits (Shortest.digits_lt .even m e))
    | _ => exact absurd (hfinite _ rfl) Bool.false_ne_true
  | string text =>
    rw [write]
    exact hcons (by decide)
  | array items =>
    cases items with
    | nil =>
      rw [write]
      decide
    | cons =>
      rw [write]
      exact hcons (by decide)
  | object members =>
    cases members with
    | nil =>
      rw [write]
      decide
    | cons =>
      rw [write]
      exact hcons (by decide)

/-- Only `null` and doubles that are not finite are written as `null`. -/
theorem text_eq_null_iff {json : Json} (hfinite : ∀ x, json = .float x → x.isFinite = true) (layout : JsonLayout) :
    json.text layout = "null" ↔ json = .null := by
  have hwrite {json : Json} (hfinite : ∀ x, json = .float x → x.isFinite = true) (indent : Nat)
      (h : String.ofList (json.write indent 0) = "null") : json = .null := by
    by_contra hnull
    refine head_write hnull hfinite indent 0 ?_
    rw [← String.toList_ofList (l := json.write indent 0), h]
    rfl
  unfold text
  dsimp only
  constructor
  · intro h
    split at h
    · have hsorted : json.sorted = .null := hwrite (by cases json <;> simp_all [sorted]) _ h
      cases json <;> simp_all [sorted]
    · exact hwrite hfinite _ h
  · rintro rfl
    split <;> rfl

end Json

namespace ScalarKind

variable {kind : ScalarKind} {u v w : Value}

/-! ### In, out and in again -/

/-- A scalar with a form of its own takes in nothing but `null` and values of that form. -/
private theorem eq_null_or_isInternal (hkind : kind ≠ .any) (h : kind.coerceIn v = .ok w) :
    w = .null ∨ kind.isInternal w = true := by
  by_cases hnull : v = .null
  · subst hnull
    left
    cases kind <;> first | exact absurd rfl hkind | exact (Except.ok.inj h).symm
  · refine .inr (isInternal_of_coerceIn ?_ hnull h)
    -- what refers to variables is of no form at all
    cases v with
    | var | list | object => cases kind <;> first | exact absurd rfl hkind | cases h
    | _ => rfl

/-- A time in Greenwich is taken in again exactly if its text reads as it. -/
private theorem coerceIn_text {t : Timestamp} (hoffset : t.offset = 0) :
    coerceIn time (.string t.text) = .ok (.time t) ↔ t.InYears ∧ t.IsRegular := by
  rw [← Timestamp.parse?_text_iff hoffset]
  simp only [coerceIn, coerceTime, timeOf?]
  cases (Timestamp.parse? t.text).map Timestamp.toUniversal <;> simp

/-- What a scalar has taken in it gives out. It takes that in again as the same value; only a time must lie in the years that
are written without a sign, or its text is refused, and its leap second, if it is in one, must end a minute. -/
theorem coerceIn_coerceOut (h : kind.coerceIn v = .ok w) :
    ∃ u, kind.coerceOut w = .ok u ∧
      (kind.coerceIn u = .ok w ↔ ∀ t, kind = .time → w = .time t → t.InYears ∧ t.IsRegular) ∧
      ∀ t, kind = .time → w = .time t → ¬t.InYears → kind.coerceIn u = .error (.wrongKind u "Time") := by
  -- all but times come out as they are
  have hself (hout : kind.coerceOut w = .ok w) (htime : kind ≠ .time ∨ ∀ t, w ≠ .time t) :
      ∃ u, kind.coerceOut w = .ok u ∧
        (kind.coerceIn u = .ok w ↔ ∀ t, kind = .time → w = .time t → t.InYears ∧ t.IsRegular) ∧
        ∀ t, kind = .time → w = .time t → ¬t.InYears → kind.coerceIn u = .error (.wrongKind u "Time") :=
    have hno (t : Timestamp) (hkind : kind = .time) : w ≠ .time t := htime.elim (absurd hkind) fun hother => hother t
    ⟨w, hout, iff_of_true (coerceIn_coerced h) fun t hkind hw => absurd hw (hno t hkind),
      fun t hkind hw => absurd hw (hno t hkind)⟩
  by_cases hany : kind = .any
  · subst hany
    exact hself rfl (.inl (by decide))
  rcases eq_null_or_isInternal hany h with rfl | hinternal
  · refine hself ?_ (.inr (by simp))
    cases kind <;> rfl
  · unfold isInternal at hinternal
    split at hinternal
    · exact hself (by simp [coerceOut, coerceInteger, hinternal]) (.inl (by decide))
    · exact hself rfl (.inl (by decide))
    · exact hself rfl (.inl (by decide))
    · exact hself rfl (.inl (by decide))
    · exact hself rfl (.inl (by decide))
    · exact hself rfl (.inl (by decide))
    · next t =>
      have hoffset : t.offset = 0 := beq_iff_eq.1 hinternal
      have huniversal : t.toUniversal = t := by
        rw [Timestamp.toUniversal, ← hoffset]
      refine ⟨.string t.text, by simp [coerceOut, coerceTime, timeOf?, huniversal], ?_, ?_⟩
      · rw [coerceIn_text hoffset]
        exact ⟨fun hread _ _ ht => Value.time.inj ht ▸ hread, fun hread => hread t rfl rfl⟩
      · rintro _ - ht hyears
        cases ht
        simp [coerceIn, coerceTime, timeOf?, Timestamp.parse?_text_of_not_inYears hoffset hyears]
    · exact absurd rfl hany
    · cases hinternal

/-- The first second of the year 10000. -/
private def tenMillennia : Timestamp := ⟨253402300800, 0, 0⟩

theorem tenMillennia_refused :
    coerceIn time (.int 253402300800) = .ok (.time tenMillennia) ∧
      ∃ u, coerceOut time (.time tenMillennia) = .ok u ∧ coerceIn time u = .error (.wrongKind u "Time") := by
  have hin : coerceIn time (.int 253402300800) = .ok (.time tenMillennia) := rfl
  have hyears : ¬tenMillennia.InYears := fun h => absurd h.2 (by decide +kernel)
  obtain ⟨u, hout, -, hrefused⟩ := coerceIn_coerceOut hin
  exact ⟨hin, u, hout, hrefused _ rfl rfl hyears⟩

/-! ### As JSON -/

/-- A scalar with a form of its own gives out leaves of JSON, `null` for `null` only. -/
private theorem coerceOut_cases (hkind : kind ≠ .any) (h : kind.coerceOut v = .ok u) :
    (u = .null ∧ v = .null) ∨ (∃ b, u = .bool b) ∨ (∃ i, u = .int i) ∨ (∃ text, u = .string text) ∨
      kind = .float ∧ ∃ x, u = .float x ∧ (x.isFinite = true ∨ v = .float x) := by
  -- integers and doubles come out as they are taken in
  have hsame (hways : kind.coerceOut v = kind.coerceIn v) : (u = .null ∧ v = .null) ∨ kind.isInternal u = true := by
    rw [hways] at h
    refine (eq_null_or_isInternal hkind h).imp_left fun hnull => ⟨hnull, ?_⟩
    rw [hnull] at h
    exact eq_null_of_coerceIn h
  cases kind with
  | int | int64 =>
    rcases hsame rfl with hnull | hinternal
    · exact .inl hnull
    · cases u with
      | int i => exact .inr (.inr (.inl ⟨i, rfl⟩))
      | _ => cases hinternal
  | float =>
    rcases hsame rfl with hnull | hinternal
    · exact .inl hnull
    · cases u with
      | float x =>
        refine .inr (.inr (.inr (.inr ⟨rfl, x, rfl, ?_⟩)))
        cases v with
        | int i =>
          cases h
          exact .inl (Binary64.isFinite_ofInt i)
        | float y =>
          cases h
          exact .inr rfl
        | _ => cases h
      | _ => cases hinternal
  | time =>
    simp only [coerceOut, coerceTime] at h
    split at h
    · cases h
      exact .inl ⟨rfl, rfl⟩
    · split at h
      · cases h
        exact .inr (.inr (.inr (.inl ⟨_, rfl⟩)))
      · cases h
  | boolean =>
    cases v with
    | null =>
      cases h
      exact .inl ⟨rfl, rfl⟩
    | bool | int | float =>
      cases h
      exact .inr (.inl ⟨_, rfl⟩)
    | string text =>
      simp only [coerceOut] at h
      split at h
      · cases h
        exact .inr (.inl ⟨_, rfl⟩)
      · split at h
        · cases h
          exact .inr (.inl ⟨_, rfl⟩)
        · cases h
    | _ => cases h
  | string =>
    cases v with
    | null =>
      cases h
      exact .inl ⟨rfl, rfl⟩
    | bool | int | float | string | enum | time =>
      cases h
      exact .inr (.inr (.inr (.inl ⟨_, rfl⟩)))
    | _ => cases h
  | id =>
    cases v with
    | null =>
      cases h
      exact .inl ⟨rfl, rfl⟩
    | int | string | enum =>
      cases h
      exact .inr (.inr (.inr (.inl ⟨_, rfl⟩)))
    | float x =>
      simp only [coerceOut] at h
      split at h
      · cases h
        exact .inr (.inr (.inr (.inl ⟨_, rfl⟩)))
      · cases h
    | _ => cases h
  | any => exact absurd rfl hkind

/-- As JSON the result of a scalar is itself, and `null` for `null` only; but a double that is not finite, which is a result
as it is, is written as `null`. -/
theorem coerceOut_json (hkind : kind ≠ .any) (h : kind.coerceOut v = .ok u) :
    ((∀ x, u = .float x → x.isFinite = true) →
        Value.ofJson u.toJson = u ∧ ∀ layout, u.jsonText layout = "null" ↔ v = .null) ∧
      ∀ x, u = .float x → x.isFinite = false → kind = .float ∧ v = u ∧ ∀ layout, u.jsonText layout = "null" := by
  have hnull (layout : JsonLayout) : Json.null.text layout = "null" :=
    (Json.text_eq_null_iff (fun _ h => by cases h) layout).2 rfl
  -- what is `null` neither before nor as JSON
  have hleaf (hv : v ≠ .null) {json : Json} (hjson : json ≠ .null) (hfinite : ∀ x, json = .float x → x.isFinite = true)
      (layout : JsonLayout) : json.text layout = "null" ↔ v = .null :=
    iff_of_false (fun htext => hjson ((Json.text_eq_null_iff hfinite layout).1 htext)) hv
  have hother (hu : u ≠ .null) : v ≠ .null := by
    rintro rfl
    refine hu ?_
    cases kind <;> cases h <;> rfl
  rcases coerceOut_cases hkind h with ⟨rfl, rfl⟩ | ⟨b, rfl⟩ | ⟨i, rfl⟩ | ⟨text, rfl⟩ | ⟨rfl, x, rfl, hx⟩
  · exact ⟨fun _ => ⟨rfl, fun layout => iff_of_true (hnull layout) rfl⟩, fun _ hu => by cases hu⟩
  · exact ⟨fun _ => ⟨rfl, hleaf (hother (by simp)) (by simp [Value.toJson]) (by simp [Value.toJson])⟩,
      fun _ hu => by cases hu⟩
  · exact ⟨fun _ => ⟨rfl, hleaf (hother (by simp)) (by simp [Value.toJson]) (by simp [Value.toJson])⟩,
      fun _ hu => by cases hu⟩
  · exact ⟨fun _ => ⟨rfl, hleaf (hother (by simp)) (by simp [Value.toJson]) (by simp [Value.toJson])⟩,
      fun _ hu => by cases hu⟩
  · constructor
    · intro hfinite
      have hjson : (Value.float x).toJson = .float x := if_pos (hfinite x rfl)
      refine ⟨by rw [hjson]; rfl, ?_⟩
      unfold Value.jsonText
      rw [hjson]
      exact hleaf (hother (by simp)) (by simp) fun y hy => hfinite y (congrArg Value.float (Json.float.inj hy))
    · rintro _ hu hfinite
      cases hu
      have hjson : (Value.float x).toJson = .null := if_neg (by rw [hfinite]; exact Bool.false_ne_true)
      refine ⟨rfl, hx.resolve_left (by rw [hfinite]; exact Bool.false_ne_true), ?_⟩
      unfold Value.jsonText
      rw [hjson]
      exact hnull

theorem infinity_written_as_null :
    coerceOut float (.float (.infinity false)) = .ok (.float (.infinity false)) ∧
      (Value.float (.infinity false)).jsonText {} = "null" := by
  have hout : coerceOut float (.float (.infinity false)) = .ok (.float (.infinity false)) := rfl
  exact ⟨hout, ((coerceOut_json (by decide) hout).2 _ rfl rfl).2.2 {}⟩

end ScalarKind

end GraphQL
