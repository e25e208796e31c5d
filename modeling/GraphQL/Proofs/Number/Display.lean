import GraphQL.Proofs.Number.Literal
import GraphQL.Proofs.Number.Shortest

/-!
# The texts of doubles read back

The positional text of digits stands for the same number as the digits (`DecimalDigits.positional_point`,
`DecimalDigits.positional_whole`), so that it reads as the double that the digits round to. A text without a point may also
read as an integer; the printed digits fit the 64 bits of one exactly if the double itself does
(`Shortest.digits_fit`).
-/

namespace GraphQL

/-! ### Reading decimals -/

/-- A minus sign where `negative` holds. -/
def minus (negative : Bool) : List UInt8 := if negative then [0x2d] else []

theorem bytesOf_signed (negative : Bool) (text : List Char) :
    bytesOf (FloatText.signed negative text) = minus negative ++ text.flatMap utf8Bytes := by
  unfold FloatText.signed minus
  rw [bytesOf_ofList]
  cases negative <;> rfl

theorem takeSign_minus {ds : List UInt8} (hdigit : ∃ b ∈ ds.head?, Byte.isDigit b) (negative : Bool) :
    takeSign (minus negative ++ ds) = (negative, ds) := by
  obtain ⟨b, hb, hdigit⟩ := hdigit
  obtain ⟨rest, rfl⟩ := List.head?_eq_some_iff.1 hb
  cases negative with
  | true => rfl
  | false =>
    show takeSign (b :: rest) = (false, b :: rest)
    unfold takeSign
    split
    · next h =>
      obtain ⟨rfl, -⟩ := List.cons.inj h
      exact absurd hdigit (by decide)
    · next h =>
      obtain ⟨rfl, -⟩ := List.cons.inj h
      exact absurd hdigit (by decide)
    · rfl

theorem head_isDigit {ds : List UInt8} (hne : ds ≠ []) (hdigits : ∀ b ∈ ds, Byte.isDigit b) (more : List UInt8) :
    ∃ b ∈ (ds ++ more).head?, Byte.isDigit b := by
  obtain ⟨b, rest, rfl⟩ := List.exists_cons_of_ne_nil hne
  exact ⟨b, rfl, hdigits b List.mem_cons_self⟩

variable {whole places : List UInt8}

theorem FloatText.parse?_whole (hne : whole ≠ []) (hwhole : ∀ b ∈ whole, Byte.isDigit b) (negative : Bool) :
    FloatText.parse? (minus negative ++ whole) = some (Binary64.ofDecimal negative (digitsValue whole) 0) := by
  have htake : whole.takeWhile Byte.isDigit = whole := List.takeWhile_eq_self_iff.2 hwhole
  have hdrop : whole.dropWhile Byte.isDigit = [] := List.dropWhile_eq_nil_iff.2 hwhole
  unfold FloatText.parse?
  rw [takeSign_minus (by simpa using head_isDigit hne hwhole [])]
  dsimp only
  rw [htake, hdrop]
  simp [hne, parseExponent?]

theorem FloatText.parse?_point (hne : whole ≠ []) (hwhole : ∀ b ∈ whole, Byte.isDigit b)
    (hplaces : ∀ b ∈ places, Byte.isDigit b) (negative : Bool) :
    FloatText.parse? (minus negative ++ (whole ++ 0x2e :: places)) =
      some (Binary64.ofDecimal negative (digitsValue (whole ++ places)) (-places.length)) := by
  have htake : (whole ++ 0x2e :: places).takeWhile Byte.isDigit = whole := by
    rw [List.takeWhile_append_of_pos hwhole, List.takeWhile_cons_of_neg (by decide), List.append_nil]
  have hdrop : (whole ++ 0x2e :: places).dropWhile Byte.isDigit = 0x2e :: places := by
    rw [List.dropWhile_append_of_pos hwhole, List.dropWhile_cons_of_neg (by decide)]
  have htakePlaces : places.takeWhile Byte.isDigit = places := List.takeWhile_eq_self_iff.2 hplaces
  have hdropPlaces : places.dropWhile Byte.isDigit = [] := List.dropWhile_eq_nil_iff.2 hplaces
  unfold FloatText.parse?
  rw [takeSign_minus (head_isDigit hne hwhole _)]
  dsimp only
  rw [htake, hdrop]
  simp [hne, htakePlaces, hdropPlaces, parseExponent?]

/-- Digits read as an integer if it fits 64 bits. -/
theorem IntText.parse?_whole (hne : whole ≠ []) (hwhole : ∀ b ∈ whole, Byte.isDigit b) (negative : Bool) {i : ℤ}
    (hi : i = if negative then -(digitsValue whole : ℤ) else digitsValue whole) :
    IntText.parse? (minus negative ++ whole) =
      if -0x8000000000000000 ≤ i ∧ i < 0x8000000000000000 then some (Int64.ofInt i) else none := by
  have hempty : (whole.isEmpty || !whole.all Byte.isDigit) = false := by
    simp only [List.all_eq_true.2 hwhole, Bool.not_true, Bool.or_false]
    exact List.isEmpty_eq_false_iff.2 hne
  unfold IntText.parse?
  rw [takeSign_minus (by simpa using head_isDigit hne hwhole [])]
  dsimp only
  rw [hempty, if_neg Bool.false_ne_true, ← hi]
  simp only [Bool.and_eq_true, decide_eq_true_eq]

/-! ### Positional texts -/

namespace DecimalDigits

variable {x : DecimalDigits}

private theorem zeros_isDigit (n : ℕ) : ∀ c ∈ List.replicate n '0', c.isDigit := fun c hc => by
  rw [List.eq_of_mem_replicate hc]
  decide

private theorem append_isDigit {cs more : List Char} (h : ∀ c ∈ cs, c.isDigit) (hmore : ∀ c ∈ more, c.isDigit) :
    ∀ c ∈ cs ++ more, c.isDigit := fun c hc => (List.mem_append.1 hc).elim (h c) (hmore c)

/-- Digits without a fraction are written as digits, which have the same value. -/
theorem positional_whole (hlt : ∀ d ∈ x.digits, d < 10) (hne : x.digits ≠ []) (h : x.hasFraction = false) :
    x.positional ≠ [] ∧ (∀ c ∈ x.positional, c.isDigit) ∧ (Nat.ofDigitChars 10 x.positional 0 : ℚ) = x.value := by
  have hlength : (x.digits.length : ℤ) ≤ x.point := by simpa [hasFraction] using h
  have hpos : 0 < x.digits.length := List.length_pos_of_ne_nil hne
  have htext : x.positional = text x.digits ++ List.replicate (x.point - x.digits.length).toNat '0' := by
    unfold positional
    rw [if_neg (by omega)]
    dsimp only
    rw [if_pos (by omega), show (x.point - x.digits.length).toNat = x.point.toNat - x.digits.length by omega]
  rw [htext]
  refine ⟨fun hnil => ?_, append_isDigit (text_isDigit hlt) (zeros_isDigit _), (value_of_not_hasFraction h).symm⟩
  have := congrArg List.length (List.append_eq_nil_iff.1 hnil).1
  rw [length_text, List.length_nil] at this
  omega

/-- Digits with a fraction are written with a point, and have the same value with as many places. -/
theorem positional_point (hlt : ∀ d ∈ x.digits, d < 10) (h : x.hasFraction = true) :
    ∃ cs more, x.positional = cs ++ '.' :: more ∧ cs ≠ [] ∧ (∀ c ∈ cs, c.isDigit) ∧ (∀ c ∈ more, c.isDigit) ∧
      (Nat.ofDigitChars 10 (cs ++ more) 0 : ℚ) * 10 ^ (-(more.length : ℤ)) = x.value := by
  have hlength : x.point < x.digits.length := by simpa [hasFraction] using h
  unfold positional value
  split
  · next hpoint =>
    refine ⟨['0'], List.replicate (-x.point).toNat '0' ++ text x.digits, rfl, by simp, by simp,
      append_isDigit (zeros_isDigit _) (text_isDigit hlt), ?_⟩
    rw [← List.append_assoc, Nat.ofDigitChars_append,
      show ['0'] ++ List.replicate (-x.point).toNat '0' = List.replicate ((-x.point).toNat + 1) '0' from rfl,
      Nat.ofDigitChars_replicate_zero, Nat.mul_zero, List.length_append, List.length_replicate, length_text]
    congr 2
    omega
  · next hpoint =>
    dsimp only
    rw [if_neg (by omega)]
    refine ⟨text (x.digits.take x.point.toNat), text (x.digits.drop x.point.toNat), rfl, fun hnil => ?_,
      text_isDigit fun d hd => hlt d (List.mem_of_mem_take hd),
      text_isDigit fun d hd => hlt d (List.mem_of_mem_drop hd), ?_⟩
    · have := congrArg List.length hnil
      rw [length_text, List.length_take, List.length_nil] at this
      omega
    · rw [← text_append, List.take_append_drop, length_text, List.length_drop]
      congr 2
      omega

end DecimalDigits

/-! ### Integers of 64 bits -/

namespace Shortest

open Binary64

variable {m n N : ℕ} {e : ℤ}

/-- The integer that the digits of an integer stand for fits 64 bits if and only if the double does: the greatest double
below `2 ^ 63` is far enough below, and at the power itself the digits are those of a greater number. -/
theorem digits_fit (hcanonical : CanonicalParts m e) (hn : (m * 2 ^ e : ℚ) = n) (hpos : 0 < n)
    (hN : (digits .up m e).value = N) :
    (n < 0x8000000000000000 → N < 0x8000000000000000) ∧ (0x8000000000000000 ≤ n → 0x8000000000000000 < N) := by
  have hunit := two_zpow_pos e
  have hone : (1 : ℚ) ≤ n := by exact_mod_cast hpos
  have hm : m ≠ 0 := by
    rintro rfl
    rw [Nat.cast_zero, zero_mul] at hn
    linarith
  have hsize := hcanonical.lt
  have hmost : (m : ℚ) + 1 ≤ 2 * topBit := by exact_mod_cast hsize
  obtain ⟨hlow, hhigh, -⟩ := (digits_rounds .up e hm hsize).near hm
  rw [hN, div_le_iff₀ hunit] at hhigh
  rw [hN, le_div_iff₀ hunit] at hlow
  -- an integer is no number of the smallest exponent with less than 53 bits
  have hfull : topBit ≤ m := by
    rcases hcanonical with ⟨hsmall, rfl⟩ | ⟨hfull, -⟩
    · have hsmall : (m : ℚ) < topBit := by exact_mod_cast hsmall
      have hlt : (m * 2 ^ (-1074 : ℤ) : ℚ) < 1 := by
        rw [zpow_neg, mul_inv_lt_iff₀ (by positivity), one_mul]
        calc (m : ℚ) < topBit := hsmall
          _ = 2 ^ (52 : ℤ) := by norm_num
          _ ≤ 2 ^ (1074 : ℤ) := zpow_le_zpow_right₀ one_le_two (by norm_num)
      linarith
    · exact hfull
  have hleast : (topBit : ℚ) ≤ m := by exact_mod_cast hfull
  push_cast at hmost hleast
  constructor
  · intro hlt
    have hlt : (m * 2 ^ e : ℚ) < 2 ^ (63 : ℤ) := by
      rw [hn]
      exact_mod_cast hlt
    have he : e ≤ 10 := by
      by_contra! hge
      have : (2 : ℚ) ^ (11 : ℤ) ≤ 2 ^ e := zpow_le_zpow_right₀ one_le_two (by omega)
      norm_num at this hlt
      nlinarith
    have hle : (2 : ℚ) ^ e ≤ 2 ^ (10 : ℤ) := zpow_le_zpow_right₀ one_le_two he
    have : (N : ℚ) < 0x8000000000000000 := by
      norm_num at hle
      nlinarith
    exact_mod_cast this
  · intro hge
    have hge : (2 : ℚ) ^ (63 : ℤ) ≤ m * 2 ^ e := by
      rw [hn]
      exact_mod_cast hge
    have he : 11 ≤ e := by
      by_contra! hlt
      have : (2 : ℚ) ^ e ≤ 2 ^ (10 : ℤ) := zpow_le_zpow_right₀ one_le_two (by omega)
      norm_num at this hge
      nlinarith
    rcases eq_or_lt_of_le he with rfl | he
    · rcases eq_or_lt_of_le hfull with rfl | hfull
      · have hdigits : digits .up topBit 11 = ⟨[9, 2, 2, 3, 3, 7, 2, 0, 3, 6, 8, 5, 4, 7, 7, 6], 19⟩ := by decide +kernel
        rw [hdigits, DecimalDigits.value_of_not_hasFraction (by decide)] at hN
        rw [← Nat.cast_injective hN]
        decide
      · have hfull : (topBit : ℚ) + 1 ≤ m := by exact_mod_cast hfull
        have : (0x8000000000000000 : ℚ) < N := by
          push_cast at hfull
          norm_num at hlow
          linarith
        exact_mod_cast this
    · have hle : (2 : ℚ) ^ (12 : ℤ) ≤ 2 ^ e := zpow_le_zpow_right₀ one_le_two he
      have : (0x8000000000000000 : ℚ) < N := by
        norm_num at hle
        nlinarith
      exact_mod_cast this

end Shortest

end GraphQL
