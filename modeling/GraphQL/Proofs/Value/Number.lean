import GraphQL.Proofs.Number.Display
import GraphQL.Proofs.Value.Literal
import GraphQL.Proofs.Value.Reader

/-!
# Numbers read back

The literal of an integer reads as the integer, and that of a finite double as the double, unless the double is an integer
that is written without a fraction and fits 64 bits: that one becomes an integer of the same value
(`Value.rereadFloat_finite`). The literal of an infinite double is no number (`Parser.readValue_rereads`).
-/

namespace GraphQL

namespace Binary64

/-- The double is an integer that fits 64 bits, and long enough to be written without a fraction. -/
def IsLongInteger (x : Binary64) : Prop :=
  ∃ i, x.toInt? = some i ∧ 1000000000000000 ≤ i.natAbs ∧ i.natAbs < 0x8000000000000000

theorem isLongInteger_finite {negative : Bool} {m : ℕ} {e : ℤ} {h : CanonicalParts m e} :
    (finite negative m e h).IsLongInteger ↔
      ∃ n, wholePart m e = (n, true) ∧ 1000000000000000 ≤ n ∧ n < 0x8000000000000000 := by
  unfold IsLongInteger toInt?
  dsimp only
  generalize wholePart m e = part
  obtain ⟨n, _ | _⟩ := part
  · simp
  · cases negative <;> simp

theorem zero_ne_nan (negative : Bool) : zero negative ≠ .nan := by simp [zero]

theorem round_ne_nan (negative : Bool) (num den : ℕ) : round negative num den ≠ .nan := by
  have hparts (m : ℕ) (e : ℤ) : ofParts negative m e ≠ .nan := by
    unfold ofParts
    split <;> simp
  unfold round
  split
  · exact zero_ne_nan _
  · dsimp only
    split
    · exact hparts _ _
    · exact hparts _ _

theorem ofDecimal_ne_nan (negative : Bool) (digits : ℕ) (exponent : ℤ) : ofDecimal negative digits exponent ≠ .nan := by
  unfold ofDecimal
  dsimp only
  split_ifs
  · exact zero_ne_nan _
  · simp
  · exact zero_ne_nan _
  · exact round_ne_nan _ _ _
  · exact round_ne_nan _ _ _

end Binary64

theorem FloatText.parse?_ne_nan {run : List UInt8} {x : Binary64} (h : FloatText.parse? run = some x) : x ≠ .nan := by
  unfold FloatText.parse? at h
  dsimp only at h
  split at h
  all_goals
    split at h
    · cases h
    · obtain ⟨exponent, -, h⟩ := Option.bind_eq_some_iff.1 h
      rw [← Option.some.inj h]
      exact Binary64.ofDecimal_ne_nan _ _ _

namespace Parser

variable {whole places : List UInt8}

theorem numberValue?_ne_nan {run : List UInt8} : numberValue? run ≠ some (.float .nan) := by
  have hmap (bytes : List UInt8) : (FloatText.parse? bytes).map Value.float ≠ some (.float .nan) := by
    intro h
    obtain ⟨x, hx, hfloat⟩ := Option.map_eq_some_iff.1 h
    cases hfloat
    exact FloatText.parse?_ne_nan hx rfl
  have hint (i : Int64) : some (Value.int i) ≠ some (.float .nan) := fun h => by cases h
  unfold numberValue?
  dsimp only
  split
  all_goals
    split
    · exact hmap _
    · split
      · exact hint _
      · exact hmap _

/-! ### Runs of digits -/

/-- A point or the mark of an exponent, which an integer has not. -/
private def marksDouble (b : UInt8) : Bool := b == 0x2e || b == 0x65 || b == 0x45

private theorem marksDouble_of_isDigit {b : UInt8} (h : Byte.isDigit b) : marksDouble b = false := by
  revert h
  simp only [marksDouble, Byte.isDigit, Bool.and_eq_true, decide_eq_true_eq, Bool.or_eq_false_iff, beq_eq_false_iff_ne,
    ne_eq, UInt8.le_iff_toNat_le, ← UInt8.toNat_inj, UInt8.reduceToNat]
  omega

private theorem numberValue?_of_isDigit {ds : List UInt8} (hdigit : ∃ b ∈ ds.head?, Byte.isDigit b) (negative : Bool) :
    numberValue? (minus negative ++ ds) =
      if (minus negative ++ ds).any marksDouble then (FloatText.parse? (minus negative ++ ds)).map .float
      else
        match IntText.parse? (minus negative ++ ds) with
        | some i => some (.int i)
        | none => (FloatText.parse? (minus negative ++ ds)).map .float := by
  obtain ⟨b, hb, hdigit⟩ := hdigit
  obtain ⟨rest, rfl⟩ := List.head?_eq_some_iff.1 hb
  have hplus : ∀ more, minus negative ++ b :: rest ≠ 0x2b :: more := by
    rintro more hmore
    cases negative with
    | true => cases hmore
    | false =>
      obtain ⟨rfl, -⟩ := List.cons.inj hmore
      exact absurd hdigit (by decide)
  unfold numberValue?
  split
  · next hrun => exact absurd hrun (hplus _)
  · rfl

private theorem any_minus (negative : Bool) (ds : List UInt8) :
    (minus negative ++ ds).any marksDouble = ds.any marksDouble := by
  cases negative <;> rfl

theorem numberValue?_point (hne : whole ≠ []) (hwhole : ∀ b ∈ whole, Byte.isDigit b)
    (hplaces : ∀ b ∈ places, Byte.isDigit b) (negative : Bool) :
    numberValue? (minus negative ++ (whole ++ 0x2e :: places)) =
      some (.float (Binary64.ofDecimal negative (digitsValue (whole ++ places)) (-places.length))) := by
  rw [numberValue?_of_isDigit (head_isDigit hne hwhole _), any_minus, if_pos (by simp [marksDouble]),
    FloatText.parse?_point hne hwhole hplaces]
  rfl

/-- Digits without a point are an integer if it fits, and a double otherwise. -/
theorem numberValue?_whole (hne : whole ≠ []) (hwhole : ∀ b ∈ whole, Byte.isDigit b) (negative : Bool) {i : ℤ}
    (hi : i = if negative then -(digitsValue whole : ℤ) else digitsValue whole) :
    numberValue? (minus negative ++ whole) =
      if -0x8000000000000000 ≤ i ∧ i < 0x8000000000000000 then some (.int (Int64.ofInt i))
      else some (.float (Binary64.ofDecimal negative (digitsValue whole) 0)) := by
  have hhead : ∃ b ∈ whole.head?, Byte.isDigit b := by simpa using head_isDigit hne hwhole []
  have hany : whole.any marksDouble = false :=
    List.any_eq_false.2 fun b hb => by simp [marksDouble_of_isDigit (hwhole b hb)]
  rw [numberValue?_of_isDigit hhead, any_minus, hany, if_neg Bool.false_ne_true,
    IntText.parse?_whole hne hwhole negative hi, FloatText.parse?_whole hne hwhole]
  split
  · next hfits => split at hfits <;> simp_all
  · next hfits => split at hfits <;> simp_all

/-! ### The literals of doubles -/

variable {cs more : List Char}

/-- A text with a point reads as the double that the digits round to. -/
private theorem numberValue?_signed_point (hne : cs ≠ []) (hcs : ∀ c ∈ cs, c.isDigit) (hmore : ∀ c ∈ more, c.isDigit)
    (negative : Bool) :
    numberValue? (bytesOf (FloatText.signed negative (cs ++ '.' :: more))) =
      some (.float (Binary64.ofDecimal negative (Nat.ofDigitChars 10 (cs ++ more) 0) (-more.length))) := by
  have hall : ∀ c ∈ cs ++ more, c.isDigit := fun c hc => (List.mem_append.1 hc).elim (hcs c) (hmore c)
  rw [bytesOf_signed, List.flatMap_append, List.flatMap_cons, show utf8Bytes '.' = [0x2e] from rfl,
    List.singleton_append, numberValue?_point (bytes_ne_nil hne) (bytes_isDigit hcs) (bytes_isDigit hmore),
    ← List.flatMap_append, digitsValue_bytes hall, length_bytes hmore]

private theorem numberValue?_signed_whole (hne : cs ≠ []) (hcs : ∀ c ∈ cs, c.isDigit) (negative : Bool) {i : ℤ}
    (hi : i = if negative then -(Nat.ofDigitChars 10 cs 0 : ℤ) else Nat.ofDigitChars 10 cs 0) :
    numberValue? (bytesOf (FloatText.signed negative cs)) =
      if -0x8000000000000000 ≤ i ∧ i < 0x8000000000000000 then some (.int (Int64.ofInt i))
      else some (.float (Binary64.ofDecimal negative (Nat.ofDigitChars 10 cs 0) 0)) := by
  rw [← digitsValue_bytes hcs] at hi ⊢
  rw [bytesOf_signed, numberValue?_whole (bytes_ne_nil hne) (bytes_isDigit hcs) negative hi]

end Parser

namespace Value

open Binary64 GraphQL.Parser

variable {negative : Bool} {m n : ℕ} {e : ℤ}

private theorem rereadFloat_eq (h : CanonicalParts m e) :
    rereadFloat (.finite negative m e h) = numberValue? (bytesOf (FloatText.literal (.finite negative m e h))) := rfl

private theorem positional_eq (hm : m ≠ 0) : FloatText.positional m e = (Shortest.digits .up m e).positional := if_neg hm

/-- An integer with few digits is written with the place of a zero, which keeps it a double. -/
private theorem rereadFloat_short (h : CanonicalParts m e) (hpart : wholePart m e = (n, true))
    (hshort : n < 1000000000000000) :
    rereadFloat (.finite negative m e h) = some (.float (.finite negative m e h)) := by
  have hliteral : FloatText.literal (.finite negative m e h) =
      FloatText.signed negative (Nat.toDigits 10 n ++ '.' :: ['0']) := by
    simp only [FloatText.literal, hpart, if_pos hshort]
  have hdigits : ∀ c ∈ Nat.toDigits 10 n, c.isDigit := fun _ => Nat.isDigit_of_mem_toDigits (by decide) (by decide)
  have hvalue : Nat.ofDigitChars 10 (Nat.toDigits 10 n ++ ['0']) 0 = 10 * n := by
    rw [Nat.ofDigitChars_append, Nat.ofDigitChars_ten_toDigits]
    exact Nat.ofDigitChars_replicate_zero (n := 1)
  rw [rereadFloat_eq, hliteral, numberValue?_signed_point Nat.toDigits_ne_nil hdigits (by simp), hvalue]
  congr 2
  by_cases hm : m = 0
  · subst hm
    have hn : n = 0 := by
      have := wholePart_eq_iff.1 hpart
      rw [Nat.cast_zero, zero_mul] at this
      exact_mod_cast this.symm
    have he : e = -1074 := by
      rcases h with ⟨-, he⟩ | ⟨hfull, -⟩
      · exact he
      · exact absurd hfull (by decide)
    subst hn he
    rfl
  · refine ofDecimal_of_rounds h hm ?_
    have hself : ((10 * n : ℕ) : ℚ) * 10 ^ (-(['0'].length : ℤ)) = m * 2 ^ e := by
      rw [wholePart_eq_iff.1 hpart]
      norm_num
      ring
    rw [hself]
    exact rounds_self hm

/-- A double that is no integer has a fraction, which keeps it a double. -/
private theorem rereadFloat_fraction (h : CanonicalParts m e) (hpart : wholePart m e = (n, false)) :
    rereadFloat (.finite negative m e h) = some (.float (.finite negative m e h)) := by
  have hno : ∀ i : ℕ, (m * 2 ^ e : ℚ) ≠ i := fun i hi => by
    rw [wholePart_eq_iff.2 hi] at hpart
    cases hpart
  have hm : m ≠ 0 := by
    rintro rfl
    exact hno 0 (by simp)
  have hsize := h.lt
  obtain ⟨cs, more, htext, hne, hcs, hmore, hvalue⟩ := DecimalDigits.positional_point (Shortest.digits_lt .up m e)
    (Shortest.digits_hasFraction hm hsize hno)
  have hliteral : FloatText.literal (.finite negative m e h) = FloatText.signed negative (cs ++ '.' :: more) := by
    simp only [FloatText.literal, hpart, FloatText.display, positional_eq hm, htext]
  rw [rereadFloat_eq, hliteral, numberValue?_signed_point hne hcs hmore]
  congr 2
  refine ofDecimal_of_rounds h hm ?_
  rw [hvalue]
  exact Shortest.digits_rounds .up e hm hsize

/-- An integer with many digits is written without a fraction and becomes an integer where it fits. -/
private theorem rereadFloat_long (negative : Bool) (h : CanonicalParts m e) (hpart : wholePart m e = (n, true))
    (hlong : 1000000000000000 ≤ n) :
    (n < 0x8000000000000000 → ∃ i, rereadFloat (.finite negative m e h) = some (.int i) ∧
        Binary64.ofInt i.toInt = .finite negative m e h) ∧
      (0x8000000000000000 ≤ n → rereadFloat (.finite negative m e h) = some (.float (.finite negative m e h))) := by
  have hn := wholePart_eq_iff.1 hpart
  have hm : m ≠ 0 := by
    rintro rfl
    rw [Nat.cast_zero, zero_mul] at hn
    have : n = 0 := by exact_mod_cast hn.symm
    omega
  have hsize := h.lt
  have hrounds := Shortest.digits_rounds .up e hm hsize
  obtain ⟨hne, hdigits, hvalue⟩ := DecimalDigits.positional_whole (Shortest.digits_lt .up m e)
    (Shortest.digits_ne_nil hm hsize) (Shortest.digits_not_hasFraction hm hsize hn hlong)
  have hliteral : FloatText.literal (.finite negative m e h) =
      FloatText.signed negative (Shortest.digits .up m e).positional := by
    simp only [FloatText.literal, hpart, if_neg (Nat.not_lt.2 hlong), FloatText.display, positional_eq hm]
  obtain ⟨hfit, hunfit⟩ := Shortest.digits_fit h hn (by omega) hvalue.symm
  rw [← hvalue] at hrounds
  rw [rereadFloat_eq, hliteral, numberValue?_signed_whole hne hdigits negative rfl]
  generalize Nat.ofDigitChars 10 (Shortest.digits .up m e).positional 0 = N at hrounds hfit hunfit ⊢
  constructor
  · intro hlt
    have hN := hfit hlt
    have hpos : 0 < N := by
      obtain ⟨hlow, -⟩ := hrounds.near hm
      have hone : (1 : ℚ) ≤ m := Nat.one_le_cast_iff_ne_zero.2 hm
      have : (0 : ℚ) < N / 2 ^ e := by linarith
      exact_mod_cast (div_pos_iff_of_pos_right (two_zpow_pos e)).1 this
    have hbounds : -0x8000000000000000 ≤ (if negative then -(N : ℤ) else N) ∧
        (if negative then -(N : ℤ) else N) < 0x8000000000000000 := by
      split <;> omega
    rw [if_pos hbounds]
    refine ⟨_, rfl, ?_⟩
    have htoInt : (Int64.ofInt (if negative then -(N : ℤ) else N)).toInt = if negative then -(N : ℤ) else N :=
      Int64.toInt_ofInt_of_le hbounds.1 hbounds.2
    rw [htoInt]
    cases negative with
    | true =>
      have hround := ofInt_of_rounds h hm (i := -N) (by simpa using hrounds)
      rw [decide_eq_true (show -(N : ℤ) < 0 by omega)] at hround
      exact hround
    | false =>
      have hround := ofInt_of_rounds h hm (i := N) (by simpa using hrounds)
      rw [decide_eq_false (show ¬(N : ℤ) < 0 by omega)] at hround
      exact hround
  · intro hge
    have hN := hunfit hge
    rw [if_neg (by split <;> omega)]
    congr 2
    exact ofDecimal_of_rounds h hm (by simpa using hrounds)

/-- The literal of a finite double reads as the double, but where it is a long integer as an integer that rounds to it. -/
theorem rereadFloat_finite (negative : Bool) (h : CanonicalParts m e) :
    (Binary64.IsLongInteger (.finite negative m e h) → ∃ i, rereadFloat (.finite negative m e h) = some (.int i) ∧
        Binary64.ofInt i.toInt = .finite negative m e h) ∧
      (¬Binary64.IsLongInteger (.finite negative m e h) →
        rereadFloat (.finite negative m e h) = some (.float (.finite negative m e h))) := by
  rw [isLongInteger_finite]
  cases hpart : wholePart m e with
  | mk n whole =>
    cases whole with
    | false => exact ⟨by simp, fun _ => rereadFloat_fraction h hpart⟩
    | true =>
      rcases Nat.lt_or_ge n 1000000000000000 with hshort | hlong
      · refine ⟨?_, fun _ => rereadFloat_short h hpart hshort⟩
        rintro ⟨_, hn, hle, -⟩
        cases hn
        omega
      · obtain ⟨hfits, hdoes⟩ := rereadFloat_long negative h hpart hlong
        refine ⟨?_, fun hno => hdoes (Nat.le_of_not_lt fun hlt => hno ⟨n, rfl, hlong, hlt⟩)⟩
        rintro ⟨_, hn, -, hlt⟩
        cases hn
        exact hfits hlt

end Value

/-! ### Reading back -/

namespace Parser

variable {ahead : List UInt8} {s t : Scanner} {v w : Value}

/-- Reading gives the value and stops in front of what is ahead. -/
def ReadsTo (s : Scanner) (v : Value) (ahead : List UInt8) : Prop :=
  ∃ after, readValue s = .ok v after ∧ after.rest = ahead

private theorem readsTo_of_reread (h : v.Legible) (hreread : v.reread = some w) (hends : Ends ahead)
    (ht : t.rest = bytesOf v.literal ++ ahead) : ReadsTo t w ahead := by
  have hnone : v.reread = none → False := by
    rw [hreread]
    intro h
    cases h
  obtain ⟨hok, herror⟩ := (readValue_reads h hends hnone).here t ht
  cases hread : readValue t with
  | error e after => exact (herror e after hread).elim
  | ok w' after =>
    obtain ⟨hw', hafter⟩ := hok w' after hread
    rw [hreread] at hw'
    cases hw'
    exact ⟨after, hread, hafter⟩

private theorem error_of_reread (h : v.Legible) (hreread : v.reread = none) (hends : Ends ahead)
    (ht : t.rest = bytesOf v.literal ++ ahead) : ∃ e after, readValue t = .error e after := by
  obtain ⟨hok, -⟩ := (readValue_reads (F := True) h hends fun _ => trivial).here t ht
  cases hread : readValue t with
  | error e after => exact ⟨e, after, rfl⟩
  | ok w after =>
    obtain ⟨hw, -⟩ := hok w after hread
    rw [hreread] at hw
    cases hw

/-- A number that was read is written as a literal of the same number, wherever the literal may end: an integer as itself,
and a double as itself if it is finite and no long integer. A long integer is read back as an integer of which the double
is the nearest one, and an infinite number as a word or, after a minus sign, not at all. -/
theorem readValue_rereads {s' : Scanner} (hread : readValue s = .ok v s') (hends : Ends ahead)
    (ht : t.rest = bytesOf v.literal ++ ahead) :
    (∀ i, v = .int i → ReadsTo t v ahead) ∧
      ∀ x, v = .float x →
        x.isFinite = true ∧ ¬x.IsLongInteger ∧ ReadsTo t v ahead ∨
          x.IsLongInteger ∧ (∃ i, ReadsTo t (.int i) ahead ∧ Binary64.ofInt i.toInt = x) ∨
          x = .infinity false ∧ ReadsTo t (.enum "inf") ahead ∨
          x = .infinity true ∧ ∃ e after, readValue t = .error e after := by
  refine ⟨?_, ?_⟩
  · rintro i rfl
    exact readsTo_of_reread (.atom rfl) (by simp only [Value.reread]) hends ht
  · rintro x rfl
    have hlegible : (Value.float x).Legible := .atom rfl
    have hreread : (Value.float x).reread = Value.rereadFloat x := by simp only [Value.reread]
    cases x with
    | finite negative m e hcanonical =>
      obtain ⟨hlong, hshort⟩ := Value.rereadFloat_finite negative hcanonical
      by_cases h : (Binary64.finite negative m e hcanonical).IsLongInteger
      · obtain ⟨i, hi, hround⟩ := hlong h
        exact .inr (.inl ⟨h, i, readsTo_of_reread hlegible (hreread.trans hi) hends ht, hround⟩)
      · exact .inl ⟨rfl, h, readsTo_of_reread hlegible (hreread.trans (hshort h)) hends ht⟩
    | infinity negative =>
      cases negative with
      | false => exact .inr (.inr (.inl ⟨rfl, readsTo_of_reread hlegible hreread hends ht⟩))
      | true => exact .inr (.inr (.inr ⟨rfl, error_of_reread hlegible hreread hends ht⟩))
    | nan =>
      obtain ⟨-, -, hnumber⟩ := readValue_gives s.pos s _ s' rfl hread
      obtain ⟨run, hrun⟩ := hnumber _ rfl
      exact absurd hrun numberValue?_ne_nan

/-- The double `10 ^ 15`. -/
private def quadrillion : Binary64 := .finite false 0x1c6bf526340000 (-3) (by decide)

private theorem quadrillion_isLongInteger : quadrillion.IsLongInteger :=
  ⟨1000000000000000, by decide +kernel, by decide, by decide⟩

private theorem quadrillion_read : ∃ after, readValue (.ofBytes (bytesOf "1e15")) = .ok (.float quadrillion) after := by
  have hbytes : bytesOf "1e15" = [0x31, 0x65, 0x31, 0x35] := by cbv
  have hnumber : numberValue? [0x31, 0x65, 0x31, 0x35] = some (.float quadrillion) := by rfl
  have hends : Ends [] := fun b hb => by cases hb
  have hfirst : ∃ b ∈ [0x31, 0x65, 0x31, 0x35].head?, b = 0x2d ∨ Byte.isDigit b := ⟨0x31, rfl, .inr (by decide)⟩
  have hrun : ∀ b ∈ [0x31, 0x65, 0x31, 0x35], Byte.isNumber b := by simp; decide
  have hnear : Near ([0x31, 0x65, 0x31, 0x35] ++ []) [0x31, 0x65, 0x31, 0x35] := rfl
  have hnone : numberValue? [0x31, 0x65, 0x31, 0x35] = none → False := fun h => by
    rw [hnumber] at h
    cases h
  have hreads := readValue_number hfirst hrun hends hnear hnone
  rw [hbytes]
  obtain ⟨hok, herror⟩ := hreads (.ofBytes [0x31, 0x65, 0x31, 0x35]) rfl
  cases hread : readValue (.ofBytes [0x31, 0x65, 0x31, 0x35]) with
  | error e after => exact (herror e after hread).elim
  | ok v after =>
    obtain ⟨hv, -⟩ := hok v after hread
    rw [hnumber] at hv
    cases hv
    exact ⟨after, rfl⟩

theorem quadrillion_becomes_integer :
    ∃ after, readValue (.ofBytes (bytesOf "1e15")) = .ok (.float quadrillion) after ∧
      ∃ i, ReadsTo (.ofBytes (bytesOf "1000000000000000")) (.int i) [] ∧ Binary64.ofInt i.toInt = quadrillion := by
  obtain ⟨after, hread⟩ := quadrillion_read
  have hliteral : (Scanner.ofBytes (bytesOf "1000000000000000")).rest =
      bytesOf (Value.float quadrillion).literal ++ [] := by
    decide +kernel
  have hends : Ends [] := fun b hb => by cases hb
  rcases (readValue_rereads hread hends hliteral).2 _ rfl with ⟨-, hno, -⟩ | ⟨-, hi⟩ | ⟨hinf, -⟩ | ⟨hinf, -⟩
  · exact absurd quadrillion_isLongInteger hno
  · exact ⟨after, hread, hi⟩
  · cases hinf
  · cases hinf

end Parser

end GraphQL
