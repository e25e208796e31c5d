import GraphQL.Time.Calendar
import Mathlib

/-!
# Days and dates

Each number of days is that of a date that the calendar has (`Date.isValid_ofDays`, `Date.toDays_ofDays`).
-/

namespace GraphQL

namespace Date

/-! ### The years of an era -/

/-- The first day of a year in its era. -/
private def firstDay (year : ℕ) : ℕ := 365 * year + year / 4 - year / 100

/-- An era has four centuries, a century twenty-five times four years, and four years a leap day at their end, which only
the last century has at its own end. -/
private theorem exists_split {day : ℕ} (h : day < 146097) : ∃ century fours year rest,
    day = 36524 * century + 1461 * fours + 365 * year + rest ∧ century < 4 ∧ fours < 25 ∧ year < 4 ∧
      (rest < 365 ∨ rest = 365 ∧ year = 3 ∧ (fours < 24 ∨ century = 3)) := by
  obtain ⟨century, hcentury⟩ : ∃ century, century = min (day / 36524) 3 := ⟨_, rfl⟩
  obtain ⟨fours, hfours⟩ : ∃ fours, fours = (day - 36524 * century) / 1461 := ⟨_, rfl⟩
  obtain ⟨year, hyear⟩ : ∃ year, year = min ((day - 36524 * century - 1461 * fours) / 365) 3 := ⟨_, rfl⟩
  refine ⟨century, fours, year, day - 36524 * century - 1461 * fours - 365 * year, ?_⟩
  omega

private theorem yearOfEra_eq {day century fours year rest : ℕ}
    (hday : day = 36524 * century + 1461 * fours + 365 * year + rest) (hcentury : century < 4) (hfours : fours < 25)
    (hyear : year < 4) (hrest : rest < 365 ∨ rest = 365 ∧ year = 3 ∧ (fours < 24 ∨ century = 3)) :
    (day - day / 1460 + day / 36524 - day / 146096) / 365 = 100 * century + 4 * fours + year := by
  have hlast : 1461 * fours + 365 * year + rest < 36524 ∨ century = 3 ∧ 1461 * fours + 365 * year + rest = 36524 := by
    omega
  have hcenturies : day / 36524 = century + day / 146096 := by
    rcases hlast with h | h
    · rw [show day / 36524 = century by omega, show day / 146096 = 0 by omega, Nat.add_zero]
    · rw [show day / 36524 = 4 by omega, show day / 146096 = 1 by omega, h.1]
  have hleaps : day / 1460 = 25 * century + fours + (24 * century + fours + 365 * year + rest) / 1460 := by omega
  have hlate : (24 * century + fours + 365 * year + rest) / 1460 =
      if year = 3 ∧ 365 ≤ 24 * century + fours + rest then 1 else 0 := by
    split <;> omega
  rw [hcenturies, hleaps, hlate]
  split <;> omega

/-- The day lies in the year, on its 366th day only in a leap year. -/
private theorem yearOfEra_spec {day year : ℕ} (hday : day < 146097)
    (hyear : year = (day - day / 1460 + day / 36524 - day / 146096) / 365) :
    year < 400 ∧ firstDay year ≤ day ∧
      (day - firstDay year < 365 ∨ day - firstDay year = 365 ∧ (year + 1) % 4 = 0 ∧
        ((year + 1) % 100 ≠ 0 ∨ (year + 1) % 400 = 0)) := by
  obtain ⟨century, fours, y, rest, hsplit, hcentury, hfours, hy, hrest⟩ := exists_split hday
  rw [yearOfEra_eq hsplit hcentury hfours hy hrest] at hyear
  have hfirst : firstDay year = 36524 * century + 1461 * fours + 365 * y := by
    unfold firstDay
    rw [show year / 4 = 25 * century + fours by omega, show year / 100 = century by omega]
    omega
  rw [hfirst]
  omega

/-! ### The months of a year -/

private theorem monthFromMarch_spec {day month : ℕ} (hday : day < 366) (hmonth : month = (5 * day + 2) / 153) :
    month < 12 ∧ daysBeforeMonth month ≤ day ∧ day < daysBeforeMonth (month + 1) := by
  unfold daysBeforeMonth
  omega

/-- All months but February, the last one, are as long as the formula says. -/
private theorem daysInMonth_fromMarch {month : ℕ} (h : month < 11) (year : ℤ) :
    daysInMonth year (if month < 10 then month + 3 else month - 9) =
      daysBeforeMonth (month + 1) - daysBeforeMonth month := by
  interval_cases month <;> rfl

/-! ### Dates -/

/-- The parts of the date of a number of days. -/
private theorem exists_parts (days : ℤ) : ∃ (era : ℤ) (year day month : ℕ),
    days = era * 146097 + (firstDay year + day : ℕ) - 719468 ∧ year < 400 ∧
      (day < 365 ∨ day = 365 ∧ (year + 1) % 4 = 0 ∧ ((year + 1) % 100 ≠ 0 ∨ (year + 1) % 400 = 0)) ∧
      month < 12 ∧ daysBeforeMonth month ≤ day ∧ day < daysBeforeMonth (month + 1) ∧
      ofDays days =
        ⟨if month < 10 then year + era * 400 else year + era * 400 + 1, if month < 10 then month + 3 else month - 9,
          day - daysBeforeMonth month + 1⟩ := by
  obtain ⟨shifted, hshifted⟩ : ∃ shifted, shifted = days + 719468 := ⟨_, rfl⟩
  obtain ⟨dayOfEra, hdayOfEra⟩ : ∃ dayOfEra, dayOfEra = (shifted % 146097).toNat := ⟨_, rfl⟩
  obtain ⟨year, hyear⟩ : ∃ year,
    year = (dayOfEra - dayOfEra / 1460 + dayOfEra / 36524 - dayOfEra / 146096) / 365 := ⟨_, rfl⟩
  obtain ⟨day, hday⟩ : ∃ day, day = dayOfEra - firstDay year := ⟨_, rfl⟩
  obtain ⟨month, hmonth⟩ : ∃ month, month = (5 * day + 2) / 153 := ⟨_, rfl⟩
  obtain ⟨hyearLt, hfirst, hyearDay⟩ := yearOfEra_spec (by omega) hyear
  rw [← hday] at hyearDay
  obtain ⟨hmonthLt, hlow, hhigh⟩ := monthFromMarch_spec (by omega) hmonth
  refine ⟨shifted / 146097, year, day, month, by omega, hyearLt, hyearDay, hmonthLt, hlow, hhigh, ?_⟩
  unfold ofDays
  dsimp only
  rw [← hshifted, ← hdayOfEra, ← hyear, show 365 * year + year / 4 - year / 100 = firstDay year from rfl, ← hday, ← hmonth]
  by_cases h : month < 10
  · rw [if_pos h, if_pos h, if_neg (by omega)]
  · rw [if_neg h, if_neg h, if_pos (by omega)]

theorem toDays_ofDays (days : ℤ) : (ofDays days).toDays = days := by
  obtain ⟨era, year, day, month, hdays, hyear, -, hmonth, hlow, -, hdate⟩ := exists_parts days
  rw [hdate]
  unfold toDays
  dsimp only
  by_cases h : month < 10
  · rw [if_pos h, if_pos h, if_neg (by omega), if_neg (by omega), Nat.add_sub_cancel, Nat.add_sub_cancel,
      Nat.add_sub_cancel' hlow, show ((year + era * 400) % 400).toNat = year by omega,
      show (year + era * 400) / 400 = era by omega, hdays]
    unfold firstDay
    push_cast
    omega
  · rw [if_neg h, if_neg h, if_pos (by omega), if_pos (by omega), show month - 9 + 9 = month by omega,
      Nat.add_sub_cancel, Nat.add_sub_cancel' hlow, add_sub_cancel_right,
      show ((year + era * 400) % 400).toNat = year by omega, show (year + era * 400) / 400 = era by omega, hdays]
    unfold firstDay
    push_cast
    omega

theorem isValid_ofDays (days : ℤ) : (ofDays days).isValid = true := by
  obtain ⟨era, year, day, month, -, hyear, hday, hmonth, hlow, hhigh, hdate⟩ := exists_parts days
  rw [hdate]
  unfold isValid
  simp only [Bool.and_eq_true, decide_eq_true_eq]
  rcases Nat.lt_or_ge month 11 with h | h
  · rw [daysInMonth_fromMarch h]
    refine ⟨⟨⟨?_, ?_⟩, by omega⟩, by omega⟩
    · split <;> omega
    · split <;> omega
  · obtain rfl : month = 11 := by omega
    have hfebruary : daysBeforeMonth 11 = 337 := rfl
    rw [if_neg (by decide), if_neg (by decide), hfebruary]
    refine ⟨⟨⟨by decide, by decide⟩, by omega⟩, ?_⟩
    rw [daysInMonth, if_pos rfl]
    unfold isLeapYear
    simp only [Bool.and_eq_true, Bool.or_eq_true, beq_iff_eq, bne_iff_ne, ne_eq]
    split <;> omega

end Date

end GraphQL
