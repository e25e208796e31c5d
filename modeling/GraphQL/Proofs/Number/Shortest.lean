import GraphQL.Proofs.Number.Rounding

/-!
# Shortest digits

The decimal that `Shortest.digits` finds rounds to the double (`Shortest.digits_rounds`): a grid with a decimal that does
is never passed by, and that of the seventeenth digit always has one. The digits show whether the double is an integer:
one that is none gets a fraction (`Shortest.digits_hasFraction`), and one of at least `10 ^ 15` gets none
(`Shortest.digits_not_hasFraction`).
-/

namespace GraphQL

namespace Shortest

open Binary64

variable {tie : TieRule} {m d : ℕ} {e k : ℤ} {q r : ℚ}

/-! ### The grids -/

theorem powerOfTen_pos (k : ℤ) : 0 < (powerOfTen k).1 ∧ 0 < (powerOfTen k).2 := by
  have hten (n : ℕ) : 0 < Nat.pow 10 n := Nat.pow_pos (by decide)
  unfold powerOfTen
  split
  · exact ⟨hten _, Nat.one_pos⟩
  · exact ⟨Nat.one_pos, hten _⟩

theorem powerOfTen_eq (k : ℤ) : ((powerOfTen k).1 : ℚ) / (powerOfTen k).2 = 10 ^ k := by
  unfold powerOfTen
  split
  · next h =>
    obtain ⟨n, rfl⟩ := Int.eq_ofNat_of_zero_le h
    simp
  · next h =>
    obtain ⟨n, hn⟩ := Int.eq_ofNat_of_zero_le (show 0 ≤ -k by omega)
    obtain rfl : k = -n := by omega
    simp

/-- The comparison that decides whether a decimal is read back is that of rational numbers. -/
theorem readsBack_iff : readsBack m e d k = true ↔ Rounds m e (d * 10 ^ k) := by
  have hfraction := magnitude_eq (m := 1) (e := e - 2)
  have hpos : (0 : ℚ) < (magnitude 1 (e - 2)).2 := by exact_mod_cast magnitude_pos
  have hunit := two_zpow_pos (e - 2)
  rw [Nat.cast_one, one_mul] at hfraction
  have hgrid := powerOfTen_eq k
  have hgridPos : (0 : ℚ) < (powerOfTen k).2 := by exact_mod_cast (powerOfTen_pos k).2
  unfold readsBack Rounds
  dsimp only
  generalize interval m e = ends
  generalize magnitude 1 (e - 2) = unit at hfraction hpos ⊢
  generalize powerOfTen k = grid at hgrid hgridPos ⊢
  have hquarters : (d * 10 ^ k / 2 ^ (e - 2) : ℚ) = d * grid.1 * unit.2 / (unit.1 * grid.2) := by
    have hunit' : (0 : ℚ) < unit.1 := (div_pos_iff_of_pos_right hpos).1 (hfraction ▸ hunit)
    rw [← hfraction, ← hgrid]
    field_simp
  have hden : (0 : ℚ) < unit.1 * grid.2 :=
    mul_pos ((div_pos_iff_of_pos_right hpos).1 (hfraction ▸ hunit)) hgridPos
  rw [hquarters]
  split
  · simp only [Bool.and_eq_true, decide_eq_true_eq, le_div_iff₀ hden, div_le_iff₀ hden, ← mul_assoc]
    exact_mod_cast Iff.rfl
  · simp only [Bool.and_eq_true, decide_eq_true_eq, lt_div_iff₀ hden, div_lt_iff₀ hden, ← mul_assoc]
    exact_mod_cast Iff.rfl

/-- What lies between two numbers of the interval is in it. -/
theorem rounds_of_between {low high : ℚ} (hlow : Rounds m e low) (hhigh : Rounds m e high) (hle : low ≤ q)
    (hge : q ≤ high) : Rounds m e q := by
  have hunit := two_zpow_pos (e - 2)
  have hle := (div_le_div_iff_of_pos_right hunit).2 hle
  have hge := (div_le_div_iff_of_pos_right hunit).2 hge
  unfold Rounds at *
  dsimp only at *
  split at hlow
  · next heven =>
    rw [if_pos heven] at hhigh ⊢
    exact ⟨hlow.1.trans hle, hge.trans hhigh.2⟩
  · next hodd =>
    rw [if_neg hodd] at hhigh ⊢
    exact ⟨hlow.1.trans_le hle, hge.trans_lt hhigh.2⟩

theorem onGrid?_rounds (h : onGrid? tie m e k = some d) : Rounds m e (d * 10 ^ k) := by
  unfold onGrid? at h
  dsimp only at h
  refine readsBack_iff.1 ?_
  split at h
  · next hbelow habove =>
    split at h
    · cases h
      exact hbelow
    · split at h
      · cases h
        exact habove
      · cases tie with
        | up =>
          cases h
          exact habove
        | even =>
          obtain rfl := Option.some.inj h
          split
          · exact hbelow
          · exact habove
  · next hbelow _ =>
    cases h
    exact hbelow
  · next _ habove =>
    cases h
    exact habove
  · cases h

/-- If a decimal of the grid is in the interval, so is one of the two neighbours of the double. -/
theorem onGrid?_isSome (hm : m ≠ 0) (h : Rounds m e (d * 10 ^ k)) : (onGrid? tie m e k).isSome := by
  have hmagnitude := magnitude_eq (m := m) (e := e)
  have hpos : 0 < (magnitude m e).2 := magnitude_pos
  have hgrid := powerOfTen_eq k
  obtain ⟨hgridNum, hgridDen⟩ := powerOfTen_pos k
  have hunit := ten_zpow_pos k
  unfold onGrid?
  dsimp only
  generalize magnitude m e = number at hmagnitude hpos ⊢
  generalize powerOfTen k = grid at hgrid hgridNum hgridDen ⊢
  obtain ⟨below, hbelow⟩ : ∃ below, below = number.1 * grid.2 / (number.2 * grid.1) := ⟨_, rfl⟩
  have hden : 0 < number.2 * grid.1 := Nat.mul_pos hpos hgridNum
  have hratio : (m * 2 ^ e / 10 ^ k : ℚ) = (number.1 * grid.2 : ℕ) / (number.2 * grid.1 : ℕ) := by
    have h1 : (0 : ℚ) < number.2 := by exact_mod_cast hpos
    have h2 : (0 : ℚ) < grid.1 := by exact_mod_cast hgridNum
    have h3 : (0 : ℚ) < grid.2 := by exact_mod_cast hgridDen
    rw [← hmagnitude, ← hgrid]
    push_cast
    field_simp
  have hle : (below * 10 ^ k : ℚ) ≤ m * 2 ^ e := by
    rw [← le_div_iff₀ hunit, hratio, hbelow]
    exact Nat.cast_div_le
  have hlt : (m * 2 ^ e : ℚ) ≤ (below + 1 : ℕ) * 10 ^ k := by
    rw [← div_le_iff₀ hunit, hratio, div_le_iff₀ (by exact_mod_cast hden), hbelow]
    have hnext := (Nat.lt_mul_div_succ (number.1 * grid.2) hden).le
    rw [Nat.mul_comm (number.2 * grid.1)] at hnext
    exact_mod_cast hnext
  rw [← hbelow]
  have hhit : readsBack m e below k = true ∨ readsBack m e (below + 1) k = true := by
    rw [readsBack_iff, readsBack_iff]
    rcases le_or_gt d below with hd | hd
    · have hd : (d * 10 ^ k : ℚ) ≤ below * 10 ^ k := mul_le_mul_of_nonneg_right (by exact_mod_cast hd) hunit.le
      exact .inl (rounds_of_between h (rounds_self hm) hd hle)
    · have hd : ((below + 1 : ℕ) * 10 ^ k : ℚ) ≤ d * 10 ^ k :=
        mul_le_mul_of_nonneg_right (by exact_mod_cast hd) hunit.le
      exact .inr (rounds_of_between (rounds_self hm) h hlt hd)
  split
  · split
    · rfl
    · split
      · rfl
      · cases tie <;> rfl
  · rfl
  · rfl
  · next hmissBelow hmissAbove =>
    rw [hmissBelow, hmissAbove] at hhit
    exact absurd hhit (by decide)

/-! ### The search -/

theorem decimalExponent_spec {num den : ℕ} (hnum : 0 < num) (hden : 0 < den) :
    (10 : ℚ) ^ (decimalExponent num den - 1) ≤ num / den ∧ (num / den : ℚ) < 10 ^ decimalExponent num den := by
  have hnum' : (0 : ℚ) < num := by exact_mod_cast hnum
  have hden' : (0 : ℚ) < den := by exact_mod_cast hden
  unfold decimalExponent
  split
  · next hle =>
    obtain ⟨hlow, hhigh⟩ := decimalLength_spec (Nat.div_pos hle hden).ne'
    refine ⟨hlow.trans Nat.cast_div_le, ?_⟩
    -- the next integer is not above the power of ten either
    rw [zpow_natCast] at hhigh ⊢
    have hnext : num / den + 1 ≤ 10 ^ decimalLength (num / den) := by exact_mod_cast hhigh
    rw [div_lt_iff₀ hden']
    have hlt : num < 10 ^ decimalLength (num / den) * den := by
      calc num < den * (num / den + 1) := Nat.lt_mul_div_succ _ hden
        _ ≤ den * 10 ^ decimalLength (num / den) := Nat.mul_le_mul_left _ hnext
        _ = 10 ^ decimalLength (num / den) * den := Nat.mul_comm _ _
    exact_mod_cast hlt
  · next hlt =>
    -- the reciprocal lies between two integers, of which the lower one has the digits that count
    have hfloor := Nat.div_mul_le_self (den + num - 1) num
    have hceil := Nat.lt_mul_div_succ (den + num - 1) hnum
    generalize (den + num - 1) / num = above at hfloor hceil ⊢
    rw [Nat.mul_succ, Nat.mul_comm] at hceil
    have habove : 2 ≤ above := by
      by_contra! hsmall
      have : above * num ≤ 1 * num := Nat.mul_le_mul_right _ (by omega)
      omega
    obtain ⟨below, rfl⟩ : ∃ below, above = below + 1 := ⟨_, (Nat.sub_add_cancel (by omega)).symm⟩
    have hlow : below * num < den := by
      rw [Nat.succ_mul] at hfloor
      omega
    have hhigh : den ≤ (below + 1) * num := by omega
    obtain ⟨hleast, hmost⟩ := decimalLength_spec (show below ≠ 0 by omega)
    rw [Nat.add_sub_cancel]
    generalize decimalLength below = length at hleast hmost ⊢
    constructor
    · rw [show (1 : ℤ) - length - 1 = -length by ring, zpow_neg, le_div_iff₀ hden', ← div_eq_inv_mul,
        div_le_iff₀ (ten_zpow_pos _)]
      have hnext : ((below + 1 : ℕ) : ℚ) ≤ 10 ^ (length : ℤ) := by
        rw [zpow_natCast] at hmost ⊢
        exact_mod_cast hmost
      calc (den : ℚ) ≤ (below + 1 : ℕ) * num := by exact_mod_cast hhigh
        _ ≤ 10 ^ (length : ℤ) * num := mul_le_mul_of_nonneg_right hnext hnum'.le
        _ = num * 10 ^ (length : ℤ) := mul_comm _ _
    · rw [div_lt_iff₀ hden', show (1 : ℤ) - length = -(length - 1) by ring, zpow_neg, ← div_eq_inv_mul,
        lt_div_iff₀ (ten_zpow_pos _)]
      calc (num * 10 ^ ((length : ℤ) - 1) : ℚ) ≤ num * below := mul_le_mul_of_nonneg_left hleast hnum'.le
        _ = below * num := mul_comm _ _
        _ < den := by exact_mod_cast hlow

/-- The search stops at the first grid that hits, if the last one does. -/
theorem search_spec {p : ℤ} (more n : ℕ) (h : (onGrid? tie m e (p - (n + more : ℕ))).isSome) :
    ∃ i ≤ more, ∃ d, onGrid? tie m e (p - (n + i : ℕ)) = some d ∧ search tie m e p more n = (d, p - (n + i : ℕ)) ∧
      ∀ j < i, onGrid? tie m e (p - (n + j : ℕ)) = none := by
  induction more generalizing n with
  | zero =>
    obtain ⟨d, hd⟩ := Option.isSome_iff_exists.1 h
    refine ⟨0, le_rfl, d, hd, ?_, fun j hj => absurd hj (Nat.not_lt_zero j)⟩
    rw [Nat.add_zero] at hd ⊢
    rw [search, hd]
    rfl
  | succ more ih =>
    unfold search
    cases hgrid : onGrid? tie m e (p - n) with
    | some d => exact ⟨0, Nat.zero_le _, d, hgrid, rfl, fun j hj => absurd hj (Nat.not_lt_zero j)⟩
    | none =>
      obtain ⟨i, hi, d, hd, hsearch, hearlier⟩ := ih (n + 1) (by rwa [show n + 1 + more = n + (more + 1) by omega])
      rw [show n + 1 + i = n + (i + 1) by omega] at hd hsearch
      refine ⟨i + 1, by omega, d, hd, hsearch, fun j hj => ?_⟩
      cases j with
      | zero => exact hgrid
      | succ j =>
        have := hearlier j (by omega)
        rwa [show n + 1 + j = n + (j + 1) by omega] at this

/-- A grid of seventeen digits is finer than the doubles. -/
theorem onGrid?_isSome_of_le (hm : m ≠ 0) (hsize : m < 2 * topBit) (hgrid : (10 : ℚ) ^ (k + 16) ≤ m * 2 ^ e) :
    (onGrid? tie m e k).isSome := by
  have hunit := two_zpow_pos e
  have hten := ten_zpow_pos k
  obtain ⟨number, hnumber⟩ : ∃ number : ℚ, number = m * 2 ^ e / 10 ^ k := ⟨_, rfl⟩
  have hpos : 0 ≤ number := by
    rw [hnumber]
    positivity
  -- the multiple nearest to the double
  obtain ⟨d, hd⟩ : ∃ d : ℕ, d = ⌊number + 1 / 2⌋₊ := ⟨_, rfl⟩
  have hlow : number - 1 / 2 ≤ d := by
    have := Nat.lt_floor_add_one (number + 1 / 2)
    rw [← hd] at this
    linarith
  have hhigh : (d : ℚ) ≤ number + 1 / 2 := hd ▸ Nat.floor_le (by linarith)
  -- in units of the last place
  obtain ⟨ratio, hratio⟩ : ∃ ratio : ℚ, ratio = 10 ^ k / 2 ^ e := ⟨_, rfl⟩
  have hratioPos : 0 < ratio := hratio ▸ div_pos hten hunit
  have hm' : number * ratio = m := by
    rw [hnumber, hratio]
    field_simp
  have hcoarse : ratio * 10 ^ 16 ≤ m := by
    rw [zpow_add₀ (by norm_num), ← div_le_iff₀ hunit] at hgrid
    rw [hratio]
    calc (10 ^ k / 2 ^ e * 10 ^ 16 : ℚ) = 10 ^ k * 10 ^ (16 : ℤ) / 2 ^ e := by
          rw [show (10 : ℚ) ^ (16 : ℤ) = 10 ^ 16 by norm_num]
          ring
      _ ≤ m := hgrid
  have hmost : (m : ℚ) + 1 ≤ 2 * topBit := by exact_mod_cast hsize
  have hplace : (d * 10 ^ k / 2 ^ e : ℚ) = d * ratio := by rw [hratio, mul_div_assoc]
  refine onGrid?_isSome hm (d := d) (rounds_of_near hm ?_ ?_ fun htop _ => ?_)
  · rw [hplace]
    push_cast at hmost
    nlinarith
  · rw [hplace]
    push_cast at hmost
    nlinarith
  · rw [hplace]
    have htop : (m : ℚ) = topBit := by exact_mod_cast htop
    push_cast at htop
    nlinarith

/-! ### The digits -/

theorem text_digitsOf (n : ℕ) : DecimalDigits.text (digitsOf n) = Nat.toDigits 10 n := by
  unfold DecimalDigits.text digitsOf
  rw [List.map_map]
  refine (List.map_congr_left fun c hc => ?_).trans (List.map_id _)
  have hdigit := Nat.isDigit_of_mem_toDigits (by decide) (by decide) hc
  simp only [Char.isDigit, Bool.and_eq_true, decide_eq_true_eq, ge_iff_le, UInt32.le_iff_toNat_le] at hdigit
  have hle : 0x30 ≤ c.toNat := hdigit.1
  rw [Function.comp_apply, DecimalDigits.digitChar, Nat.add_sub_cancel' hle, Char.ofNat_toNat, id]

theorem eq_stripZeros_append (ds : List ℕ) : ∃ zeros, ds = stripZeros ds ++ List.replicate zeros 0 := by
  refine ⟨(ds.reverse.takeWhile (· == 0)).length, ?_⟩
  have hzeros : ds.reverse.takeWhile (· == 0) = List.replicate (ds.reverse.takeWhile (· == 0)).length 0 :=
    List.eq_replicate_iff.2 ⟨rfl, fun d hd => eq_of_beq (List.mem_takeWhile_imp (p := fun d => d == 0) hd)⟩
  unfold stripZeros
  rw [← List.reverse_inj, List.reverse_append, List.reverse_reverse, List.reverse_replicate, ← hzeros,
    List.takeWhile_append_dropWhile]

end Shortest

namespace DecimalDigits

/-- The number that the digits stand for. -/
def value (x : DecimalDigits) : ℚ := Nat.ofDigitChars 10 (text x.digits) 0 * 10 ^ (x.point - x.digits.length)

theorem text_append (ds more : List ℕ) : text (ds ++ more) = text ds ++ text more := List.map_append

theorem text_zeros (n : ℕ) : text (List.replicate n 0) = List.replicate n '0' := List.map_replicate

theorem length_text (ds : List ℕ) : (text ds).length = ds.length := List.length_map _

/-- Without a fraction they stand for an integer, the digits of which are followed by zeros. -/
theorem value_of_not_hasFraction {x : DecimalDigits} (h : x.hasFraction = false) :
    x.value = Nat.ofDigitChars 10 (text x.digits ++ List.replicate (x.point - x.digits.length).toNat '0') 0 := by
  obtain ⟨n, hn⟩ := Int.eq_ofNat_of_zero_le (show 0 ≤ x.point - x.digits.length by
    have := of_decide_eq_false h
    omega)
  unfold value
  rw [Nat.ofDigitChars_append, Nat.ofDigitChars_replicate_zero, hn, Int.toNat_natCast, zpow_natCast]
  push_cast
  ring

end DecimalDigits

namespace Shortest

open Binary64 DecimalDigits

variable {tie : TieRule} {m n : ℕ} {e : ℤ}

/-- The digits are those of the decimal on the first grid that hits. -/
private theorem digits_found (tie : TieRule) (hm : m ≠ 0) (hsize : m < 2 * topBit) :
    ∃ (d zeros : ℕ) (p k : ℤ), onGrid? tie m e k = some d ∧ (digits tie m e).value = d * 10 ^ k ∧
      (digits tie m e).point = (digits tie m e).digits.length + zeros + k ∧
      ((m * 2 ^ e : ℚ) < 10 ^ p ∧ p - 17 ≤ k ∧ ∀ j, k < j → j < p → onGrid? tie m e j = none) := by
  have hmagnitude := magnitude_eq (m := m) (e := e)
  have hpos : 0 < (magnitude m e).2 := magnitude_pos
  have hnum : 0 < (magnitude m e).1 := by
    have hv : (0 : ℚ) < m * 2 ^ e := mul_pos (by exact_mod_cast Nat.pos_of_ne_zero hm) (two_zpow_pos e)
    rw [← hmagnitude] at hv
    exact_mod_cast (div_pos_iff_of_pos_right (by exact_mod_cast hpos)).1 hv
  obtain ⟨hlow, hhigh⟩ := decimalExponent_spec hnum hpos
  rw [hmagnitude] at hlow hhigh
  unfold digits
  dsimp only
  generalize decimalExponent (magnitude m e).1 (magnitude m e).2 = p at hlow hhigh ⊢
  obtain ⟨i, hi, d, hd, hsearch, hearlier⟩ := @search_spec tie m e p 16 1
    (onGrid?_isSome_of_le hm hsize (by rwa [show p - (1 + 16 : ℕ) + 16 = p - 1 by push_cast; ring]))
  obtain ⟨zeros, hzeros⟩ := eq_stripZeros_append (digitsOf d)
  have hlength := congrArg List.length hzeros
  rw [List.length_append, List.length_replicate] at hlength
  rw [hsearch]
  refine ⟨d, zeros, p, _, hd, ?_, by dsimp only; omega, hhigh, by omega, fun j hj hjp => ?_⟩
  · have hvalue : 10 ^ zeros * Nat.ofDigitChars 10 (text (stripZeros (digitsOf d))) 0 = d := by
      rw [← Nat.ofDigitChars_replicate_zero, ← Nat.ofDigitChars_append, ← text_zeros, ← text_append, ← hzeros,
        text_digitsOf, Nat.ofDigitChars_ten_toDigits]
    unfold value
    dsimp only
    generalize p - ((1 + i : ℕ) : ℤ) = k
    rw [show ((digitsOf d).length : ℤ) + k - (stripZeros (digitsOf d)).length = zeros + k by omega,
      zpow_add₀ (by norm_num), zpow_natCast, ← mul_assoc]
    congr 1
    rw [mul_comm]
    exact_mod_cast hvalue
  · obtain ⟨j', hj'⟩ := Int.eq_ofNat_of_zero_le (show 0 ≤ p - j - 1 by omega)
    have := hearlier j' (by omega)
    rwa [show p - ((1 + j' : ℕ) : ℤ) = j by omega] at this

/-- The shortest digits of a double round to it. -/
theorem digits_rounds (tie : TieRule) (e : ℤ) (hm : m ≠ 0) (hsize : m < 2 * topBit) :
    Rounds m e (digits tie m e).value := by
  obtain ⟨d, zeros, p, k, hd, hvalue, -⟩ := digits_found (e := e) tie hm hsize
  rw [hvalue]
  exact onGrid?_rounds hd

theorem digits_ne_nil (hm : m ≠ 0) (hsize : m < 2 * topBit) : (digits tie m e).digits ≠ [] := by
  intro hnil
  have h := (digits_rounds tie e hm hsize).near hm
  have hone : (1 : ℚ) ≤ m := Nat.one_le_cast_iff_ne_zero.2 hm
  have hzero : (digits tie m e).value = 0 := by
    unfold value
    rw [hnil]
    simp [text]
  rw [hzero, zero_div] at h
  linarith [h.1]

/-- No integer is as near as that to a double that is none. -/
theorem integral_of_rounds (hm : m ≠ 0) (h : Rounds m e n) : ∃ i : ℕ, (m * 2 ^ e : ℚ) = i := by
  rcases le_or_gt 0 e with he | he
  · obtain ⟨i, rfl⟩ := Int.eq_ofNat_of_zero_le he
    exact ⟨m * 2 ^ i, by simp⟩
  · obtain ⟨i, hi⟩ := Int.eq_ofNat_of_zero_le (show 0 ≤ -e by omega)
    obtain rfl : e = -i := by omega
    obtain ⟨hlow, hhigh, -⟩ := h.near hm
    have hunit : (0 : ℚ) < 2 ^ i := by positivity
    rw [zpow_neg, zpow_natCast, div_inv_eq_mul] at hlow hhigh
    have hlow' : m < n * 2 ^ i + 1 := by
      have : (m : ℚ) < n * 2 ^ i + 1 := by linarith
      exact_mod_cast this
    have hhigh' : n * 2 ^ i < m + 1 := by
      have : (n : ℚ) * 2 ^ i < m + 1 := by linarith
      exact_mod_cast this
    refine ⟨n, ?_⟩
    obtain rfl : m = n * 2 ^ i := by omega
    rw [zpow_neg, zpow_natCast]
    push_cast
    field_simp

/-- A double that is no integer is written with a fraction. -/
theorem digits_hasFraction (hm : m ≠ 0) (hsize : m < 2 * topBit) (h : ∀ i : ℕ, (m * 2 ^ e : ℚ) ≠ i) :
    (digits tie m e).hasFraction = true := by
  by_contra hfraction
  rw [Bool.not_eq_true] at hfraction
  have hrounds := digits_rounds tie e hm hsize
  rw [value_of_not_hasFraction hfraction] at hrounds
  obtain ⟨i, hi⟩ := integral_of_rounds hm hrounds
  exact h i hi

/-- A large integer is written without: at the latest the grid of the integers hits. -/
theorem digits_not_hasFraction (hm : m ≠ 0) (hsize : m < 2 * topBit) (hn : (m * 2 ^ e : ℚ) = n) (hlarge : 10 ^ 15 ≤ n) :
    (digits tie m e).hasFraction = false := by
  obtain ⟨d, zeros, p, k, hd, -, hpoint, hhigh, hle, hearlier⟩ := digits_found (e := e) tie hm hsize
  have hp : 15 < p := by
    have hlarge : (10 : ℚ) ^ (15 : ℤ) ≤ n := by
      rw [show (10 : ℚ) ^ (15 : ℤ) = 10 ^ 15 by norm_num]
      exact_mod_cast hlarge
    exact (zpow_lt_zpow_iff_right₀ (by norm_num : (1 : ℚ) < 10)).1 (hlarge.trans_lt (hn ▸ hhigh))
  have hk : 0 ≤ k := by
    by_contra! hneg
    have hself : Rounds m e ((n : ℕ) * 10 ^ (0 : ℤ)) := by
      rw [zpow_zero, mul_one, ← hn]
      exact rounds_self hm
    have hhit : (onGrid? tie m e 0).isSome = true := onGrid?_isSome hm hself
    rw [hearlier 0 hneg (by omega)] at hhit
    exact absurd hhit (by decide)
  unfold hasFraction
  rw [decide_eq_false_iff_not, hpoint]
  omega

end Shortest

end GraphQL
