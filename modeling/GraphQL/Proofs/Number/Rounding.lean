import GraphQL.Number.Shortest
import Mathlib

/-!
# Rounding to doubles

`Binary64.round` computes with fractions of natural numbers, which are rational numbers here. Around a double lies the
interval of the rationals that round to it: `Binary64.Rounds` says that a number lies in it, and from there on a number
is rounded to the double, whether it is given as a fraction (`Binary64.round_of_rounds`) or as a decimal
(`Binary64.ofDecimal_of_rounds`).
-/

namespace GraphQL

theorem CanonicalParts.lt {m : ℕ} {e : ℤ} (h : CanonicalParts m e) : m < 2 * topBit := by
  rcases h with ⟨hsmall, -⟩ | ⟨-, hsmall, -⟩ <;> omega

theorem CanonicalParts.exponent {m : ℕ} {e : ℤ} (h : CanonicalParts m e) : -1074 ≤ e ∧ e ≤ 971 := by
  rcases h with ⟨-, rfl⟩ | ⟨-, -, hleast, hmost⟩ <;> omega

namespace Binary64

variable {negative : Bool} {m num den : ℕ} {e k : ℤ} {q : ℚ}

theorem two_zpow_pos (k : ℤ) : (0 : ℚ) < 2 ^ k := zpow_pos (by norm_num) k

theorem ten_zpow_pos (k : ℤ) : (0 : ℚ) < 10 ^ k := zpow_pos (by norm_num) k

/-! ### Fractions -/

theorem scaleByTwo_pos (hden : 0 < den) : 0 < (scaleByTwo num den k).2 := by
  unfold scaleByTwo
  split
  · exact hden
  · rw [Nat.shiftLeft_eq]
    positivity

theorem scaleByTwo_eq (num den : ℕ) (k : ℤ) :
    ((scaleByTwo num den k).1 : ℚ) / (scaleByTwo num den k).2 = num / den * 2 ^ k := by
  unfold scaleByTwo
  split
  · next h =>
    obtain ⟨n, rfl⟩ := Int.eq_ofNat_of_zero_le h
    simp only [Int.toNat_natCast, Nat.shiftLeft_eq, Nat.cast_mul, Nat.cast_pow, Nat.cast_ofNat, zpow_natCast]
    ring
  · next h =>
    obtain ⟨n, hn⟩ := Int.eq_ofNat_of_zero_le (show 0 ≤ -k by omega)
    obtain rfl : k = -n := by omega
    simp only [neg_neg, Int.toNat_natCast, Nat.shiftLeft_eq, Nat.cast_mul, Nat.cast_pow, Nat.cast_ofNat, zpow_neg,
      zpow_natCast]
    field_simp

theorem magnitude_pos : 0 < (magnitude m e).2 := scaleByTwo_pos Nat.one_pos

theorem magnitude_eq : ((magnitude m e).1 : ℚ) / (magnitude m e).2 = m * 2 ^ e := by
  unfold magnitude
  rw [scaleByTwo_eq, Nat.cast_one, div_one]

/-- The whole part of a number is all of it if it is a natural number, which is then the whole part. -/
theorem wholePart_eq_iff {n : ℕ} : wholePart m e = (n, true) ↔ (m * 2 ^ e : ℚ) = n := by
  have hpos : 0 < (magnitude m e).2 := magnitude_pos
  have hpos' : ((magnitude m e).2 : ℚ) ≠ 0 := by exact_mod_cast hpos.ne'
  rw [← magnitude_eq, div_eq_iff hpos']
  unfold wholePart
  generalize magnitude m e = number at hpos ⊢
  have hdiv := Nat.div_add_mod number.1 number.2
  simp only [Prod.mk.injEq, beq_iff_eq]
  constructor
  · rintro ⟨rfl, hrest⟩
    rw [hrest, Nat.add_zero, Nat.mul_comm] at hdiv
    exact_mod_cast hdiv.symm
  · intro h
    have h : number.1 = n * number.2 := by exact_mod_cast h
    rw [h]
    exact ⟨Nat.mul_div_cancel _ hpos, Nat.mul_mod_left _ _⟩

/-- The exponent is that of the power of two at or below the number. -/
theorem binaryExponent_spec (hnum : 0 < num) (hden : 0 < den) :
    (2 : ℚ) ^ binaryExponent num den ≤ num / den ∧ (num / den : ℚ) < 2 ^ (binaryExponent num den + 1) := by
  have hnumLow : (2 : ℚ) ^ Nat.log2 num ≤ num := by exact_mod_cast Nat.log2_self_le hnum.ne'
  have hnumHigh : (num : ℚ) < 2 ^ (Nat.log2 num + 1) := by exact_mod_cast Nat.lt_log2_self
  have hdenLow : (2 : ℚ) ^ Nat.log2 den ≤ den := by exact_mod_cast Nat.log2_self_le hden.ne'
  have hdenHigh : (den : ℚ) < 2 ^ (Nat.log2 den + 1) := by exact_mod_cast Nat.lt_log2_self
  have hden' : (0 : ℚ) < den := by exact_mod_cast hden
  -- the logarithms of numerator and denominator give the exponent or one more
  obtain ⟨k, hk⟩ : ∃ k : ℤ, k = (Nat.log2 num : ℤ) - (Nat.log2 den : ℤ) := ⟨_, rfl⟩
  have hlow : (2 : ℚ) ^ (k - 1) ≤ num / den := by
    rw [le_div_iff₀ hden']
    calc (2 : ℚ) ^ (k - 1) * den ≤ 2 ^ (k - 1) * 2 ^ (Nat.log2 den + 1) :=
          mul_le_mul_of_nonneg_left hdenHigh.le (two_zpow_pos _).le
      _ = 2 ^ Nat.log2 num := by
          rw [← zpow_natCast, ← zpow_natCast, ← zpow_add₀ two_ne_zero]
          congr 1
          push_cast
          omega
      _ ≤ num := hnumLow
  have hhigh : (num / den : ℚ) < 2 ^ (k + 1) := by
    rw [div_lt_iff₀ hden']
    calc (num : ℚ) < 2 ^ (Nat.log2 num + 1) := hnumHigh
      _ = 2 ^ (k + 1) * 2 ^ Nat.log2 den := by
          rw [← zpow_natCast, ← zpow_natCast, ← zpow_add₀ two_ne_zero]
          congr 1
          push_cast
          omega
      _ ≤ 2 ^ (k + 1) * den := mul_le_mul_of_nonneg_left hdenLow (two_zpow_pos _).le
  -- and the comparison with the power of two decides which
  have hscaled := scaleByTwo_eq num den (-k)
  have hpos : (0 : ℚ) < (scaleByTwo num den (-k)).2 := by exact_mod_cast scaleByTwo_pos hden
  unfold binaryExponent
  simp only [← hk]
  split
  · next hle =>
    refine ⟨?_, hhigh⟩
    have hone : (1 : ℚ) ≤ num / den * 2 ^ (-k) := by
      rw [← hscaled, one_le_div hpos]
      exact_mod_cast hle
    rw [zpow_neg, ← div_eq_mul_inv, one_le_div (two_zpow_pos k)] at hone
    exact hone
  · next hlt =>
    refine ⟨hlow, ?_⟩
    have hone : (num / den : ℚ) * 2 ^ (-k) < 1 := by
      rw [← hscaled, div_lt_one hpos]
      exact_mod_cast not_le.1 hlt
    rw [zpow_neg, ← div_eq_mul_inv, div_lt_one (two_zpow_pos k)] at hone
    rwa [sub_add_cancel]

theorem binaryExponent_eq (hnum : 0 < num) (hden : 0 < den) (hlow : (2 : ℚ) ^ k ≤ num / den)
    (hhigh : (num / den : ℚ) < 2 ^ (k + 1)) : binaryExponent num den = k := by
  obtain ⟨hlow', hhigh'⟩ := binaryExponent_spec hnum hden
  have hle := (zpow_lt_zpow_iff_right₀ one_lt_two).1 (hlow.trans_lt hhigh')
  have hge := (zpow_lt_zpow_iff_right₀ one_lt_two).1 (hlow'.trans_lt hhigh)
  omega

/-- What lies within a half of a natural number is rounded to it, at a distance of exactly a half if it is even. -/
theorem roundHalfEven_eq (hden : 0 < den) (hlow : (m : ℚ) - 1 / 2 ≤ num / den) (hhigh : (num / den : ℚ) ≤ m + 1 / 2)
    (htie : m % 2 = 0 ∨ (m : ℚ) - 1 / 2 < num / den ∧ (num / den : ℚ) < m + 1 / 2) : roundHalfEven num den = m := by
  have hden' : (0 : ℚ) < den := by exact_mod_cast hden
  -- the same in natural numbers
  have hlow' : 2 * m * den ≤ 2 * num + den := by
    rw [le_div_iff₀ hden'] at hlow
    have : (2 * m * den : ℚ) ≤ 2 * num + den := by linarith
    exact_mod_cast this
  have hhigh' : 2 * num ≤ (2 * m + 1) * den := by
    rw [div_le_iff₀ hden'] at hhigh
    have : (2 * num : ℚ) ≤ (2 * m + 1) * den := by linarith
    exact_mod_cast this
  have htie' : m % 2 = 0 ∨ 2 * m * den < 2 * num + den ∧ 2 * num < (2 * m + 1) * den := by
    refine htie.imp_right fun ⟨hlow, hhigh⟩ => ⟨?_, ?_⟩
    · rw [lt_div_iff₀ hden'] at hlow
      have : (2 * m * den : ℚ) < 2 * num + den := by linarith
      exact_mod_cast this
    · rw [div_lt_iff₀ hden'] at hhigh
      have : (2 * num : ℚ) < (2 * m + 1) * den := by linarith
      exact_mod_cast this
  have hdiv : den * (num / den) + num % den = num := Nat.div_add_mod num den
  have hmod : num % den < den := Nat.mod_lt num hden
  unfold roundHalfEven
  generalize num / den = quotient at hdiv ⊢
  generalize num % den = rest at hdiv hmod ⊢
  have hquotient : quotient = m ∨ quotient + 1 = m := by
    have hle : quotient ≤ m := by
      by_contra! hlt
      nlinarith [Nat.mul_le_mul_left den (show m + 1 ≤ quotient from hlt)]
    have hge : m ≤ quotient + 1 := by
      by_contra! hlt
      nlinarith [Nat.mul_le_mul_left den (show quotient + 2 ≤ m from hlt)]
    omega
  subst hdiv
  rcases hquotient with rfl | rfl
  · have hrest : 2 * rest ≤ den := by nlinarith
    have hrest' : quotient % 2 = 0 ∨ 2 * rest < den := htie'.imp_right fun h => by nlinarith [h.2]
    dsimp only
    split_ifs <;> omega
  · have hrest : den ≤ 2 * rest := by nlinarith
    have hrest' : (quotient + 1) % 2 = 0 ∨ den < 2 * rest := htie'.imp_right fun h => by nlinarith [h.1]
    dsimp only
    split_ifs <;> omega

/-! ### The interval of a double -/

/-- The number lies in the interval of `m · 2 ^ e`. It is compared with the ends in quarters of the last place, and may be
one of them only if `m` is even. -/
def Rounds (m : ℕ) (e : ℤ) (q : ℚ) : Prop :=
  let ends := Shortest.interval m e
  let quarters := q / 2 ^ (e - 2)
  if m % 2 = 0 then (ends.1 : ℚ) ≤ quarters ∧ quarters ≤ ends.2 else (ends.1 : ℚ) < quarters ∧ quarters < ends.2

private theorem quarters_eq : q / 2 ^ (e - 2) = 4 * (q / 2 ^ e) := by
  rw [zpow_sub₀ two_ne_zero]
  field_simp
  norm_num

/-- The number is at most half a last place away from the double; below a power of two, where the next double is only
half as far, at most a quarter. -/
theorem Rounds.near (h : Rounds m e q) (hm : m ≠ 0) :
    (m : ℚ) - 1 / 2 ≤ q / 2 ^ e ∧ q / 2 ^ e ≤ m + 1 / 2 ∧
      (m = topBit → e ≠ -1074 → (m : ℚ) - 1 / 4 ≤ q / 2 ^ e) ∧
      (m % 2 = 0 ∨ (m : ℚ) - 1 / 2 < q / 2 ^ e ∧ q / 2 ^ e < m + 1 / 2) := by
  have hpos : (1 : ℚ) ≤ m := Nat.one_le_cast_iff_ne_zero.2 hm
  unfold Rounds Shortest.interval at h
  simp only [quarters_eq] at h
  generalize q / 2 ^ e = u at h ⊢
  by_cases htop : m = topBit ∧ e ≠ -1074
  · rw [if_pos htop, if_pos (by rw [htop.1]; decide)] at h
    push_cast [Nat.cast_sub (show 1 ≤ 4 * m by omega)] at h
    exact ⟨by linarith, by linarith, fun _ _ => by linarith, .inl (by rw [htop.1]; decide)⟩
  · rw [if_neg htop] at h
    push_cast [Nat.cast_sub (show 2 ≤ 4 * m by omega)] at h
    split_ifs at h with heven
    · exact ⟨by linarith, by linarith, fun h1 h2 => absurd ⟨h1, h2⟩ htop, .inl heven⟩
    · exact ⟨by linarith, by linarith, fun h1 h2 => absurd ⟨h1, h2⟩ htop, .inr ⟨by linarith, by linarith⟩⟩

/-- What is nearer than that to the double lies in its interval. -/
theorem rounds_of_near (hm : m ≠ 0) (hlow : (m : ℚ) - 1 / 2 < q / 2 ^ e) (hhigh : q / 2 ^ e < m + 1 / 2)
    (hquarter : m = topBit → e ≠ -1074 → (m : ℚ) - 1 / 4 < q / 2 ^ e) : Rounds m e q := by
  unfold Rounds Shortest.interval
  simp only [quarters_eq]
  generalize q / 2 ^ e = u at hlow hhigh hquarter ⊢
  by_cases htop : m = topBit ∧ e ≠ -1074
  · have hquarter := hquarter htop.1 htop.2
    rw [if_pos htop, if_pos (by rw [htop.1]; decide)]
    push_cast [Nat.cast_sub (show 1 ≤ 4 * m by omega)]
    exact ⟨by linarith, by linarith⟩
  · rw [if_neg htop]
    push_cast [Nat.cast_sub (show 2 ≤ 4 * m by omega)]
    split_ifs
    · exact ⟨by linarith, by linarith⟩
    · exact ⟨by linarith, by linarith⟩

theorem rounds_self (hm : m ≠ 0) : Rounds m e (m * 2 ^ e) := by
  have hself : (m : ℚ) * 2 ^ e / 2 ^ e = m := mul_div_cancel_right₀ _ (two_zpow_pos e).ne'
  exact rounds_of_near hm (by linarith) (by linarith) fun _ _ => by linarith

/-- The mantissa is that at the exponent of the number, but not below the least one; a mantissa of 54 bits is halved. -/
theorem round_eq (hnum : 0 < num) (hden : 0 < den) (hexponent : max (-1074) (binaryExponent num den - 52) = e)
    (hlow : (m : ℚ) - 1 / 2 ≤ num / den / 2 ^ e) (hhigh : (num / den / 2 ^ e : ℚ) ≤ m + 1 / 2)
    (htie : m % 2 = 0 ∨ (m : ℚ) - 1 / 2 < num / den / 2 ^ e ∧ (num / den / 2 ^ e : ℚ) < m + 1 / 2) :
    round negative num den =
      if m = 2 * topBit then ofParts negative topBit (e + 1) else ofParts negative m e := by
  have hscaled := scaleByTwo_eq num den (-e)
  rw [zpow_neg, ← div_eq_mul_inv] at hscaled
  rw [← hscaled] at hlow hhigh htie
  unfold round
  simp only [if_neg hnum.ne', hexponent, roundHalfEven_eq (scaleByTwo_pos hden) hlow hhigh htie]

/-- A number in the interval of a double rounds to it. -/
theorem round_of_rounds (hcanonical : CanonicalParts m e) (hm : m ≠ 0) (hden : 0 < den) (h : Rounds m e (num / den)) :
    round negative num den = .finite negative m e hcanonical := by
  obtain ⟨hlow, hhigh, hquarter, htie⟩ := h.near hm
  have hunit := two_zpow_pos e
  have hone : (1 : ℚ) ≤ m := Nat.one_le_cast_iff_ne_zero.2 hm
  have hnum : 0 < num := by
    have hpos : (0 : ℚ) < num / den / 2 ^ e := by linarith
    have hpos : (0 : ℚ) < num / den := (div_pos_iff_of_pos_right hunit).1 hpos
    exact_mod_cast (div_pos_iff_of_pos_right (by exact_mod_cast hden)).1 hpos
  have hsize := hcanonical.lt
  have hexponent := hcanonical.exponent.1
  have hm' : (m : ℚ) + 1 ≤ 2 * topBit := by exact_mod_cast hsize
  have htop : (topBit : ℚ) = 2 ^ (52 : ℤ) := by norm_num
  -- where the exponent is that of the double, the mantissa is
  have hsame (hexponent : max (-1074) (binaryExponent num den - 52) = e) :
      round negative num den = .finite negative m e hcanonical := by
    rw [round_eq hnum hden hexponent hlow hhigh htie, if_neg hsize.ne]
    exact dif_pos hcanonical
  rcases le_or_gt (topBit : ℚ) (num / den / 2 ^ e) with hfull | hshort
  · refine hsame ?_
    have hexponent : binaryExponent num den = e + 52 := by
      refine binaryExponent_eq hnum hden ?_ ?_
      · rw [le_div_iff₀ hunit, htop, ← zpow_add₀ two_ne_zero] at hfull
        rwa [add_comm]
      · have hlt : (num / den / 2 ^ e : ℚ) < 2 * topBit := by linarith
        rw [div_lt_iff₀ hunit, htop, ← zpow_one_add₀ two_ne_zero, ← zpow_add₀ two_ne_zero] at hlt
        rwa [show e + 52 + 1 = 1 + 52 + e by ring]
    omega
  · have hbelow : (num / den : ℚ) < 2 ^ (52 + e) := by
      rwa [div_lt_iff₀ hunit, htop, ← zpow_add₀ two_ne_zero] at hshort
    by_cases hleast : e = -1074
    · refine hsame ?_
      have hexponent := (zpow_lt_zpow_iff_right₀ one_lt_two).1 ((binaryExponent_spec hnum hden).1.trans_lt hbelow)
      omega
    · -- only a power of two has numbers below it that have a smaller exponent and still round to it
      have hmin : m = topBit := by
        rcases hcanonical with ⟨-, hleast'⟩ | ⟨hfull, -⟩
        · exact absurd hleast' hleast
        · refine le_antisymm ?_ hfull
          by_contra! hlt
          have hlt : (topBit : ℚ) + 1 ≤ m := by exact_mod_cast hlt
          linarith
      subst hmin
      have hquarter := hquarter rfl hleast
      have hexponent : binaryExponent num den = e + 51 := by
        refine binaryExponent_eq hnum hden ?_ (by rwa [show e + 51 + 1 = 52 + e by ring])
        have hle : (2 : ℚ) ^ (51 : ℤ) ≤ num / den / 2 ^ e := by
          rw [htop] at hquarter
          norm_num at hquarter ⊢
          linarith
        rwa [le_div_iff₀ hunit, ← zpow_add₀ two_ne_zero, add_comm] at hle
      have htwice : (num / den / 2 ^ (e - 1) : ℚ) = 2 * (num / den / 2 ^ e) := by
        rw [zpow_sub₀ two_ne_zero]
        field_simp
      have hround := @round_eq negative (2 * topBit) num den (e - 1) hnum hden (by omega)
        (by rw [htwice]; push_cast at *; linarith) (by rw [htwice]; push_cast at *; linarith) (.inl (by decide))
      rw [hround, if_pos rfl, sub_add_cancel]
      exact dif_pos hcanonical

theorem ofInt_of_rounds (hcanonical : CanonicalParts m e) (hm : m ≠ 0) {i : ℤ} (h : Rounds m e i.natAbs) :
    ofInt i = .finite (i < 0) m e hcanonical :=
  round_of_rounds hcanonical hm Nat.one_pos (by rwa [Nat.cast_one, div_one])

theorem roundHalfEven_bounds (hden : 0 < den) (low high : ℕ) (hlow : (low : ℚ) ≤ num / den)
    (hhigh : (num / den : ℚ) < high) : low ≤ roundHalfEven num den ∧ roundHalfEven num den ≤ high := by
  have hden' : (0 : ℚ) < den := by exact_mod_cast hden
  have hle : low ≤ num / den := by
    rw [Nat.le_div_iff_mul_le hden]
    rw [le_div_iff₀ hden'] at hlow
    exact_mod_cast hlow
  have hlt : num / den < high := by
    rw [Nat.div_lt_iff_lt_mul hden]
    rw [div_lt_iff₀ hden'] at hhigh
    exact_mod_cast hhigh
  unfold roundHalfEven
  dsimp only
  split_ifs <;> omega

/-- Numbers of a middling size do not leave the range of the doubles. -/
theorem isFinite_round (hden : 0 < den) (hlow : (1 : ℚ) ≤ num / den) (hhigh : (num / den : ℚ) < 2 ^ (1000 : ℤ)) :
    (round negative num den).isFinite = true := by
  have hnum : 0 < num := by
    have hpos : (0 : ℚ) < num / den := by linarith
    exact_mod_cast (div_pos_iff_of_pos_right (by exact_mod_cast hden)).1 hpos
  obtain ⟨hleast, hmost⟩ := binaryExponent_spec hnum hden
  have hexponent : 0 ≤ binaryExponent num den ∧ binaryExponent num den < 1000 := by
    constructor
    · have := (zpow_lt_zpow_iff_right₀ one_lt_two).1 (lt_of_le_of_lt (by simpa using hlow : (2 : ℚ) ^ (0 : ℤ) ≤ _) hmost)
      omega
    · exact (zpow_lt_zpow_iff_right₀ one_lt_two).1 (hleast.trans_lt hhigh)
  have hscaled := scaleByTwo_eq num den (-(binaryExponent num den - 52))
  have hunit := two_zpow_pos (binaryExponent num den - 52)
  rw [zpow_neg, ← div_eq_mul_inv] at hscaled
  obtain ⟨hfull, htop⟩ := roundHalfEven_bounds (scaleByTwo_pos (k := -(binaryExponent num den - 52)) hden) topBit
    (2 * topBit)
    (by
      rw [hscaled, le_div_iff₀ hunit, show (topBit : ℚ) = 2 ^ (52 : ℤ) by norm_num, ← zpow_add₀ two_ne_zero]
      rwa [add_sub_cancel])
    (by
      rw [hscaled, div_lt_iff₀ hunit, show ((2 * topBit : ℕ) : ℚ) = 2 ^ (53 : ℤ) by norm_num, ← zpow_add₀ two_ne_zero]
      rwa [show (53 : ℤ) + (binaryExponent num den - 52) = binaryExponent num den + 1 by ring])
  unfold round
  simp only [if_neg hnum.ne', show max (-1074) (binaryExponent num den - 52) = binaryExponent num den - 52 by omega]
  have hparts {m : ℕ} {e : ℤ} (h : CanonicalParts m e) : (ofParts negative m e).isFinite = true := by
    rw [ofParts, dif_pos h]
    rfl
  split
  · exact hparts (.inr ⟨le_rfl, by decide, by omega, by omega⟩)
  · next hbelow => exact hparts (.inr ⟨hfull, lt_of_le_of_ne htop hbelow, by omega, by omega⟩)

/-- The integers of 64 bits are among them. -/
theorem isFinite_ofInt (i : Int64) : (ofInt i.toInt).isFinite = true := by
  have hle := i.le_toInt
  have hlt := i.toInt_lt
  unfold ofInt
  rcases Nat.eq_zero_or_pos i.toInt.natAbs with hzero | hpos
  · rw [hzero]
    rfl
  · refine isFinite_round Nat.one_pos ?_ ?_
    · rw [Nat.cast_one, div_one]
      exact_mod_cast hpos
    · have hbound : (i.toInt.natAbs : ℚ) < 2 ^ (64 : ℤ) := by
        exact_mod_cast (show i.toInt.natAbs < 2 ^ 64 by omega)
      rw [Nat.cast_one, div_one]
      exact hbound.trans (zpow_lt_zpow_right₀ one_lt_two (by norm_num))

/-! ### Decimals -/

theorem decimalLength_spec {n : ℕ} (hn : n ≠ 0) :
    (10 : ℚ) ^ ((decimalLength n : ℤ) - 1) ≤ n ∧ (n : ℚ) < 10 ^ (decimalLength n : ℤ) := by
  unfold decimalLength
  rw [if_neg hn]
  obtain ⟨k, hk⟩ : ∃ k, (Nat.toDigits 10 n).length = k + 1 := ⟨_, (Nat.sub_add_cancel Nat.length_toDigits_pos).symm⟩
  have hiff {j : ℕ} (hj : 0 < j) : k + 1 ≤ j ↔ n < 10 ^ j := hk ▸ Nat.length_toDigits_le_iff (by decide) hj
  have hlow : 10 ^ k ≤ n := by
    rcases Nat.eq_zero_or_pos k with rfl | hpos
    · omega
    · have := (hiff hpos).not
      omega
  have hhigh : n < 10 ^ (k + 1) := (hiff (Nat.succ_pos k)).1 le_rfl
  rw [hk, show ((k + 1 : ℕ) : ℤ) - 1 = (k : ℕ) by omega, zpow_natCast, zpow_natCast]
  exact ⟨by exact_mod_cast hlow, by exact_mod_cast hhigh⟩

/-- What rounds to a double other than zero lies between the bounds of decimals that are rounded at all. -/
theorem Rounds.bounds (h : Rounds m e q) (hcanonical : CanonicalParts m e) (hm : m ≠ 0) :
    (10 : ℚ) ^ (-330 : ℤ) < q ∧ q < 10 ^ (310 : ℤ) := by
  obtain ⟨hlow, hhigh, -⟩ := h.near hm
  have hunit := two_zpow_pos e
  have hone : (1 : ℚ) ≤ m := Nat.one_le_cast_iff_ne_zero.2 hm
  obtain ⟨hexponent, hexponent'⟩ := hcanonical.exponent
  have hm' : (m : ℚ) + 1 ≤ 2 * topBit := by exact_mod_cast hcanonical.lt
  rw [le_div_iff₀ hunit] at hlow
  rw [div_le_iff₀ hunit] at hhigh
  have hleast : (2 : ℚ) ^ 1075 < 10 ^ 330 := by exact_mod_cast (by decide +kernel : 2 ^ 1075 < 10 ^ 330)
  have hmost : (2 : ℚ) ^ 1024 < 10 ^ 310 := by exact_mod_cast (by decide +kernel : 2 ^ 1024 < 10 ^ 310)
  constructor
  · calc (10 : ℚ) ^ (-330 : ℤ) < 2 ^ (-1075 : ℤ) := by
          rw [zpow_neg, zpow_neg]
          exact inv_strictAnti₀ (two_zpow_pos _) (by exact_mod_cast hleast)
      _ = 1 / 2 * 2 ^ (-1074 : ℤ) := by
          rw [show (-1075 : ℤ) = -1 + -1074 by norm_num, zpow_add₀ two_ne_zero, zpow_neg_one, one_div]
      _ ≤ (m - 1 / 2) * 2 ^ e :=
          mul_le_mul (by linarith) (zpow_le_zpow_right₀ one_le_two hexponent) (two_zpow_pos _).le (by linarith)
      _ ≤ q := hlow
  · calc q ≤ (m + 1 / 2) * 2 ^ e := hhigh
      _ ≤ 2 ^ (53 : ℤ) * 2 ^ (971 : ℤ) := by
          refine mul_le_mul ?_ (zpow_le_zpow_right₀ one_le_two hexponent') hunit.le (two_zpow_pos _).le
          norm_num at hm' ⊢
          linarith
      _ = 2 ^ (1024 : ℤ) := by rw [← zpow_add₀ two_ne_zero]; norm_num
      _ < 10 ^ (310 : ℤ) := by exact_mod_cast hmost

/-- A decimal in the interval of a double rounds to it. -/
theorem ofDecimal_of_rounds (hcanonical : CanonicalParts m e) (hm : m ≠ 0) {digits : ℕ} {exponent : ℤ}
    (h : Rounds m e (digits * 10 ^ exponent)) :
    ofDecimal negative digits exponent = .finite negative m e hcanonical := by
  obtain ⟨hlow, hhigh⟩ := h.bounds hcanonical hm
  have hunit := ten_zpow_pos exponent
  have hdigits : digits ≠ 0 := by
    rintro rfl
    rw [Nat.cast_zero, zero_mul] at hlow
    exact absurd hlow (ten_zpow_pos _).le.not_gt
  obtain ⟨hleast, hmost⟩ := decimalLength_spec hdigits
  have horder : (decimalLength digits : ℤ) + exponent ≤ 310 := by
    have hle : (10 : ℚ) ^ ((decimalLength digits : ℤ) - 1 + exponent) ≤ digits * 10 ^ exponent := by
      rw [zpow_add₀ (by norm_num)]
      exact mul_le_mul_of_nonneg_right hleast hunit.le
    have := (zpow_lt_zpow_iff_right₀ (by norm_num : (1 : ℚ) < 10)).1 (hle.trans_lt hhigh)
    omega
  have horder' : -330 ≤ (decimalLength digits : ℤ) + exponent := by
    have hlt : (digits : ℚ) * 10 ^ exponent < 10 ^ ((decimalLength digits : ℤ) + exponent) := by
      rw [zpow_add₀ (by norm_num)]
      exact mul_lt_mul_of_pos_right hmost hunit
    have := (zpow_lt_zpow_iff_right₀ (by norm_num : (1 : ℚ) < 10)).1 (hlow.trans hlt)
    omega
  unfold ofDecimal
  simp only [if_neg hdigits, if_neg horder.not_gt, if_neg horder'.not_gt]
  split
  · next hpos =>
    obtain ⟨n, rfl⟩ := Int.eq_ofNat_of_zero_le hpos
    refine round_of_rounds hcanonical hm Nat.one_pos ?_
    simpa using h
  · next hneg =>
    obtain ⟨n, hn⟩ := Int.eq_ofNat_of_zero_le (show 0 ≤ -exponent by omega)
    obtain rfl : exponent = -n := by omega
    refine round_of_rounds hcanonical hm (by simp) ?_
    simpa [div_eq_mul_inv] using h

end Binary64

end GraphQL
