import GraphQL.Proofs.Time.Calendar
import GraphQL.Time.Timestamp

/-!
# Timestamps read back

The text of a time in Greenwich reads as the time exactly if its year needs no sign and a leap second ends a minute
(`Timestamp.parse?_text_iff`).
-/

namespace GraphQL

namespace Timestamp

variable {t : Timestamp} {cs : List Char}

/-- The year in which a time in Greenwich lies. -/
def year (t : Timestamp) : ℤ := (Date.ofDays (t.seconds / 86400)).year

/-- The year of a time in Greenwich is written without a sign. -/
def InYears (t : Timestamp) : Prop := 0 ≤ t.year ∧ t.year ≤ 9999

/-- A leap second is the last one of a minute in Greenwich. -/
def IsRegular (t : Timestamp) : Prop := t.nanos < 1000000000 ∨ t.seconds % 60 = 59 ∧ t.nanos < 2000000000

/-! ### Numbers of a fixed width -/

theorem foldl_digits (cs : List Char) (value : ℕ) :
    cs.foldl (fun v c => v * 10 + (c.toNat - 0x30)) value = Nat.ofDigitChars 10 cs value := by
  induction cs generalizing value with
  | nil => rfl
  | cons c cs ih =>
    rw [List.foldl_cons, ih, Nat.ofDigitChars_cons, Nat.mul_comm]
    rfl

theorem padded_isDigit (width n : ℕ) : ∀ c ∈ padded width n, c.isDigit := by
  intro c hc
  rcases List.mem_append.1 hc with hc | hc
  · rw [List.eq_of_mem_replicate hc]
    decide
  · exact Nat.isDigit_of_mem_toDigits (by decide) (by decide) hc

theorem length_padded {width n : ℕ} (hwidth : 0 < width) (h : n < 10 ^ width) : (padded width n).length = width := by
  have hle := (Nat.length_toDigits_le_iff (by decide) hwidth).2 h
  unfold padded
  dsimp only
  rw [List.length_append, List.length_replicate]
  omega

theorem ofDigitChars_padded (width n : ℕ) : Nat.ofDigitChars 10 (padded width n) 0 = n := by
  unfold padded
  dsimp only
  rw [Nat.ofDigitChars_append, Nat.ofDigitChars_replicate_zero, Nat.mul_zero, Nat.ofDigitChars_ten_toDigits]

theorem takeNumber?_padded {width n : ℕ} (hwidth : 0 < width) (h : n < 10 ^ width) (cs : List Char) :
    takeNumber? width (padded width n ++ cs) = some (n, cs) := by
  have hlength := length_padded hwidth h
  unfold takeNumber?
  rw [List.take_left' hlength, List.drop_left' hlength]
  simp only [hlength, decide_true, List.all_eq_true.2 (padded_isDigit width n), Bool.and_self, if_true, foldl_digits,
    ofDigitChars_padded]

theorem takeNanos?_padded {n : ℕ} (h : n < 10 ^ 9) {rest : List Char} (hrest : ∀ c ∈ rest.head?, c.isDigit = false) :
    takeNanos? ('.' :: (padded 9 n ++ rest)) = some (n, rest) := by
  have hlength := length_padded (by decide) h
  have htake : (padded 9 n ++ rest).takeWhile Char.isDigit = padded 9 n := by
    rw [List.takeWhile_append_of_pos (padded_isDigit 9 n)]
    cases rest with
    | nil => rw [List.takeWhile_nil, List.append_nil]
    | cons c rest => rw [List.takeWhile_cons_of_neg (by simp [hrest c rfl]), List.append_nil]
  have hdrop : (padded 9 n ++ rest).dropWhile Char.isDigit = rest := by
    rw [List.dropWhile_append_of_pos (padded_isDigit 9 n)]
    cases rest with
    | nil => rfl
    | cons c rest => rw [List.dropWhile_cons_of_neg (by simp [hrest c rfl])]
  have hempty : (padded 9 n).isEmpty = false := by
    rw [List.isEmpty_eq_false_iff, ← List.length_pos_iff, hlength]
    decide
  simp only [takeNanos?, htake, hdrop, hempty, List.take_left' hlength, foldl_digits, ofDigitChars_padded,
    Bool.false_eq_true, if_false]

/-! ### Reading -/

private theorem ofDigitChars_lt {cs : List Char} (h : ∀ c ∈ cs, c.isDigit) (value : ℕ) :
    Nat.ofDigitChars 10 cs value < 10 ^ cs.length * (value + 1) := by
  induction cs generalizing value with
  | nil => simp
  | cons c cs ih =>
    obtain ⟨hc, hcs⟩ := List.forall_mem_cons.1 h
    have hdigit : c.toNat - '0'.toNat < 10 := by
      simp only [Char.isDigit, Bool.and_eq_true, decide_eq_true_eq, ge_iff_le, UInt32.le_iff_toNat_le] at hc
      have hle : c.toNat ≤ 0x39 := hc.2
      have hzero : '0'.toNat = 0x30 := rfl
      omega
    rw [Nat.ofDigitChars_cons, List.length_cons, pow_succ, mul_assoc]
    exact (ih hcs _).trans_le (Nat.mul_le_mul_left _ (by omega))

private theorem takeNanos?_lt {n : ℕ} {rest : List Char} (h : takeNanos? cs = some (n, rest)) : n < 1000000000 := by
  unfold takeNanos? at h
  split at h
  · next cs =>
    dsimp only at h
    split at h
    · cases h
    · obtain ⟨rfl, -⟩ := Prod.mk.inj (Option.some.inj h)
      have hdigits : ∀ c ∈ (cs.takeWhile Char.isDigit ++ List.replicate 9 '0').take 9, c.isDigit := by
        intro c hc
        rcases List.mem_append.1 (List.mem_of_mem_take hc) with hc | hc
        · exact List.mem_takeWhile_imp hc
        · rw [List.eq_of_mem_replicate hc]
          decide
      have hlength : ((cs.takeWhile Char.isDigit ++ List.replicate 9 '0').take 9).length = 9 := by
        rw [List.length_take, List.length_append, List.length_replicate]
        omega
      have hlt := ofDigitChars_lt hdigits 0
      rw [hlength] at hlt
      rw [foldl_digits]
      exact hlt
  · obtain ⟨rfl, -⟩ := Prod.mk.inj (Option.some.inj h)
    decide

/-- Offsets are whole minutes. -/
private theorem offset?_minutes {offset : ℤ} (h : offset? cs = some offset) : offset % 60 = 0 := by
  unfold offset? at h
  split at h
  · cases h
    rfl
  · cases h
    rfl
  · have hminutes {negative p : Bool} {hours minutes : ℕ} (h : (if p then
        some (if negative then -(((hours * 60 + minutes : ℤ)) * 60) else (hours * 60 + minutes : ℤ) * 60) else none) =
          some offset) : offset % 60 = 0 := by
      split at h
      · cases h
        split <;> omega
      · cases h
    split at h
    · simp only [Option.bind_eq_bind, Option.bind_eq_some_iff, Prod.exists] at h
      obtain ⟨_, -, _, _, -, _, -, _, _, -, h⟩ := h
      exact hminutes h
    · split at h
      · simp only [Option.bind_eq_bind, Option.bind_eq_some_iff, Prod.exists] at h
        obtain ⟨_, -, _, _, -, _, -, _, _, -, h⟩ := h
        exact hminutes h
      · cases h
  · cases h

/-- A leap second is read at the end of a minute only. -/
theorem isRegular_of_parse? {text : String} (h : parse? text = some t) : t.IsRegular := by
  unfold parse? at h
  obtain ⟨⟨year, _⟩, -, h⟩ := Option.bind_eq_some_iff.1 h
  obtain ⟨_, -, h⟩ := Option.bind_eq_some_iff.1 h
  obtain ⟨⟨month, _⟩, -, h⟩ := Option.bind_eq_some_iff.1 h
  obtain ⟨_, -, h⟩ := Option.bind_eq_some_iff.1 h
  obtain ⟨⟨day, _⟩, -, h⟩ := Option.bind_eq_some_iff.1 h
  obtain ⟨_, -, h⟩ := Option.bind_eq_some_iff.1 h
  obtain ⟨⟨hour, _⟩, -, h⟩ := Option.bind_eq_some_iff.1 h
  obtain ⟨_, -, h⟩ := Option.bind_eq_some_iff.1 h
  obtain ⟨⟨minute, _⟩, -, h⟩ := Option.bind_eq_some_iff.1 h
  obtain ⟨_, -, h⟩ := Option.bind_eq_some_iff.1 h
  obtain ⟨⟨second, _⟩, -, h⟩ := Option.bind_eq_some_iff.1 h
  obtain ⟨⟨nanos, _⟩, hnanos, h⟩ := Option.bind_eq_some_iff.1 h
  obtain ⟨offset, hoffset, h⟩ := Option.bind_eq_some_iff.1 h
  dsimp only at h
  have hlt := takeNanos?_lt hnanos
  have hminutes := offset?_minutes hoffset
  split at h
  · next hvalid =>
    simp only [Bool.and_eq_true, decide_eq_true_eq] at hvalid
    cases h
    unfold IsRegular
    dsimp only
    split
    · right
      omega
    · exact .inl hlt
  · cases h

private theorem text_toList (hoffset : t.offset = 0) :
    t.text.toList = yearText t.year ++ ('-' :: (padded 2 (Date.ofDays (t.seconds / 86400)).month ++ ('-' ::
      (padded 2 (Date.ofDays (t.seconds / 86400)).day ++ ('T' :: (padded 2 ((t.seconds % 86400).toNat / 3600) ++ (':' ::
        (padded 2 ((t.seconds % 86400).toNat / 60 % 60) ++ (':' ::
          (padded 2 ((t.seconds % 86400).toNat % 60 + t.nanos / 1000000000) ++
            ('.' :: (padded 9 (t.nanos % 1000000000) ++ ['Z'])))))))))))) := by
  unfold text year
  simp only [hoffset, add_zero, String.toList_ofList, offsetText, if_true, List.append_assoc, List.cons_append]

/-- What is read from the parts of a time in Greenwich. -/
private theorem parse?_parts {date : Date} {year hour minute second nanos : ℕ} {text : String}
    (htext : text.toList = padded 4 year ++ ('-' :: (padded 2 date.month ++ ('-' :: (padded 2 date.day ++ ('T' ::
      (padded 2 hour ++ (':' :: (padded 2 minute ++ (':' :: (padded 2 second ++ ('.' :: (padded 9 nanos ++
        ['Z']))))))))))))) (hyear : date.year = year) (hmost : year ≤ 9999) (hvalid : date.isValid = true)
    (hhour : hour ≤ 23) (hminute : minute ≤ 59) (hsecond : second ≤ 60) (hnanos : nanos < 1000000000) :
    parse? text = some ⟨date.toDays * 86400 + (hour * 3600 + minute * 60 + min second 59 : ℕ),
      if second = 60 then nanos + 1000000000 else nanos, 0⟩ := by
  obtain ⟨y, month, day⟩ := date
  obtain rfl : y = year := hyear
  have hdate : month < 10 ^ 2 ∧ day < 10 ^ 2 := by
    unfold Date.isValid Date.daysInMonth at hvalid
    simp only [Bool.and_eq_true, decide_eq_true_eq] at hvalid
    split_ifs at hvalid <;> omega
  unfold parse?
  rw [htext]
  refine Option.bind_eq_some_iff.2 ⟨_, takeNumber?_padded (by decide) (by omega) _, ?_⟩
  refine Option.bind_eq_some_iff.2 ⟨_, rfl, ?_⟩
  refine Option.bind_eq_some_iff.2 ⟨_, takeNumber?_padded (by decide) hdate.1 _, ?_⟩
  refine Option.bind_eq_some_iff.2 ⟨_, rfl, ?_⟩
  refine Option.bind_eq_some_iff.2 ⟨_, takeNumber?_padded (by decide) hdate.2 _, ?_⟩
  refine Option.bind_eq_some_iff.2 ⟨_, rfl, ?_⟩
  refine Option.bind_eq_some_iff.2 ⟨_, takeNumber?_padded (by decide) (by omega) _, ?_⟩
  refine Option.bind_eq_some_iff.2 ⟨_, rfl, ?_⟩
  refine Option.bind_eq_some_iff.2 ⟨_, takeNumber?_padded (by decide) (by omega) _, ?_⟩
  refine Option.bind_eq_some_iff.2 ⟨_, rfl, ?_⟩
  refine Option.bind_eq_some_iff.2 ⟨_, takeNumber?_padded (by decide) (by omega) _, ?_⟩
  refine Option.bind_eq_some_iff.2 ⟨_, takeNanos?_padded hnanos (by simp), ?_⟩
  refine Option.bind_eq_some_iff.2 ⟨0, rfl, ?_⟩
  dsimp only
  rw [hvalid, decide_eq_true hhour, decide_eq_true hminute, decide_eq_true hsecond, sub_zero]
  rfl

/-- A time in Greenwich is read from its text. -/
theorem parse?_text (hoffset : t.offset = 0) (hyears : t.InYears) (hregular : t.IsRegular) : parse? t.text = some t := by
  obtain ⟨hleast, hmost⟩ := hyears
  have hyearText : yearText t.year = padded 4 t.year.toNat := by
    unfold yearText
    rw [if_pos (by simp [hleast, hmost])]
  have htext := text_toList hoffset
  rw [hyearText] at htext
  obtain ⟨second, hsecond⟩ : ∃ second, second = (t.seconds % 86400).toNat := ⟨_, rfl⟩
  rw [← hsecond] at htext
  have hlast : second % 60 + t.nanos / 1000000000 ≤ 60 := by
    rcases hregular with hnanos | ⟨hminute, hnanos⟩ <;> omega
  rw [parse?_parts htext (Int.toNat_of_nonneg hleast).symm (by omega) (Date.isValid_ofDays _) (by omega) (by omega) hlast
    (Nat.mod_lt _ (by decide)), Date.toDays_ofDays]
  obtain ⟨seconds, nanos, offset⟩ := t
  obtain rfl : offset = 0 := hoffset
  rw [Option.some.injEq, Timestamp.mk.injEq]
  dsimp only [IsRegular] at hsecond hlast hregular ⊢
  rcases hregular with hnanos | ⟨hminute, hnanos⟩
  · rw [Nat.div_eq_of_lt hnanos, Nat.mod_eq_of_lt hnanos, if_neg (by omega)]
    omega
  · split
    · omega
    · omega

theorem parse?_text_of_not_inYears (hoffset : t.offset = 0) (hyears : ¬t.InYears) : parse? t.text = none := by
  have htext : ∃ sign rest, yearText t.year = sign :: rest ∧ sign.isDigit = false := by
    unfold yearText
    rw [if_neg (by simpa [InYears] using hyears)]
    split
    · exact ⟨_, _, rfl, by decide⟩
    · exact ⟨_, _, rfl, by decide⟩
  obtain ⟨sign, rest, htext, hsign⟩ := htext
  unfold parse?
  rw [text_toList hoffset, htext, List.cons_append]
  have hnumber (cs : List Char) : takeNumber? 4 (sign :: cs) = none := by
    simp [takeNumber?, hsign]
  rw [hnumber]
  rfl

/-- The times in Greenwich that are read from their text. -/
theorem parse?_text_iff (hoffset : t.offset = 0) :
    (parse? t.text).map toUniversal = some t ↔ t.InYears ∧ t.IsRegular := by
  constructor
  · intro h
    obtain ⟨read, hread, rfl⟩ := Option.map_eq_some_iff.1 h
    have hregular : read.IsRegular := isRegular_of_parse? hread
    refine ⟨?_, hregular⟩
    by_contra hyears
    rw [parse?_text_of_not_inYears hoffset hyears] at hread
    cases hread
  · rintro ⟨hyears, hregular⟩
    have huniversal : t.toUniversal = t := by
      rw [toUniversal, ← hoffset]
    rw [parse?_text hoffset hyears hregular, Option.map_some, huniversal]

end Timestamp

end GraphQL
