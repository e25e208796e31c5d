import GraphQL.Number.Literal
import GraphQL.Proofs.Text.Bytes

/-!
# The texts of numbers

The decimal text of an integer reads as the integer (`IntText.parse?_display`), and the text of a finite double consists
of the bytes that numbers are made of.
-/

namespace GraphQL

/-! ### Decimal digits -/

/-- The bytes of a natural number in decimal. -/
def digitBytes (n : Nat) : List UInt8 := (Nat.toDigits 10 n).flatMap utf8Bytes

private theorem digit_bytes {c : Char} (h : c.isDigit) :
    ∃ b : UInt8, utf8Bytes c = [b] ∧ Byte.isDigit b ∧ b.toNat - 0x30 = c.toNat - 0x30 := by
  have hrange : 0x30 ≤ c.toNat ∧ c.toNat ≤ 0x39 := by
    simp only [Char.isDigit, Bool.and_eq_true, decide_eq_true_eq, ge_iff_le, UInt32.le_iff_toNat_le] at h
    exact h
  have hnat : (UInt8.ofNat c.toNat).toNat = c.toNat := by
    rw [UInt8.toNat_ofNat']
    exact Nat.mod_eq_of_lt (by omega)
  refine ⟨_, utf8Bytes_ascii (by omega), ?_, by rw [hnat]⟩
  simp only [Byte.isDigit, Bool.and_eq_true, decide_eq_true_eq, UInt8.le_iff_toNat_le, hnat]
  exact hrange

private theorem digits_bytes (cs : List Char) (h : ∀ c ∈ cs, c.isDigit) (value : Nat) :
    (∀ b ∈ cs.flatMap utf8Bytes, Byte.isDigit b) ∧
      (cs.flatMap utf8Bytes).foldl (fun n b => n * 10 + (b.toNat - 0x30)) value = Nat.ofDigitChars 10 cs value := by
  induction cs generalizing value with
  | nil => simp
  | cons c cs ih =>
    obtain ⟨b, hbytes, hdigit, hvalue⟩ := digit_bytes (h c List.mem_cons_self)
    obtain ⟨hall, hfold⟩ := ih (fun d hd => h d (List.mem_cons_of_mem _ hd)) (value * 10 + (b.toNat - 0x30))
    rw [List.flatMap_cons, hbytes, List.singleton_append]
    refine ⟨List.forall_mem_cons.2 ⟨hdigit, hall⟩, ?_⟩
    rw [List.foldl_cons, hfold, Nat.ofDigitChars_cons, hvalue, Nat.mul_comm]
    rfl

theorem bytes_isDigit {cs : List Char} (h : ∀ c ∈ cs, c.isDigit) : ∀ b ∈ cs.flatMap utf8Bytes, Byte.isDigit b :=
  (digits_bytes cs h 0).1

theorem digitsValue_bytes {cs : List Char} (h : ∀ c ∈ cs, c.isDigit) :
    digitsValue (cs.flatMap utf8Bytes) = Nat.ofDigitChars 10 cs 0 :=
  (digits_bytes cs h 0).2

theorem length_bytes {cs : List Char} (h : ∀ c ∈ cs, c.isDigit) : (cs.flatMap utf8Bytes).length = cs.length := by
  induction cs with
  | nil => rfl
  | cons c cs ih =>
    obtain ⟨b, hbytes, -⟩ := digit_bytes (h c List.mem_cons_self)
    rw [List.flatMap_cons, hbytes, List.length_append, ih fun d hd => h d (List.mem_cons_of_mem _ hd)]
    simp [Nat.add_comm]

theorem bytes_ne_nil {cs : List Char} (h : cs ≠ []) : cs.flatMap utf8Bytes ≠ [] := by
  obtain ⟨c, rest, rfl⟩ := List.exists_cons_of_ne_nil h
  simp [utf8Bytes_ne_nil]

theorem digitBytes_isDigit (n : Nat) : ∀ b ∈ digitBytes n, Byte.isDigit b :=
  bytes_isDigit fun _ => Nat.isDigit_of_mem_toDigits (by decide) (by decide)

theorem digitsValue_digitBytes (n : Nat) : digitsValue (digitBytes n) = n := by
  have h := digitsValue_bytes fun _ => Nat.isDigit_of_mem_toDigits (b := 10) (n := n) (by decide) (by decide)
  exact h.trans Nat.ofDigitChars_ten_toDigits

theorem digitBytes_ne_nil (n : Nat) : digitBytes n ≠ [] := bytes_ne_nil Nat.toDigits_ne_nil

/-! ### Integers -/

namespace IntText

theorem bytesOf_display (i : Int64) :
    bytesOf (display i) =
      if i.toInt < 0 then 0x2d :: digitBytes i.toInt.natAbs else digitBytes i.toInt.natAbs := by
  unfold display digitBytes
  by_cases hneg : i.toInt < 0
  · simp only [hneg, if_true]
    exact bytesOf_ofList _
  · simp only [hneg, if_false]
    exact bytesOf_ofList _

theorem takeSign_of_isDigit {bs : List UInt8} (h : ∀ b ∈ bs, Byte.isDigit b) : takeSign bs = (false, bs) := by
  unfold takeSign
  split
  · exact absurd (h _ List.mem_cons_self) (by decide)
  · exact absurd (h _ List.mem_cons_self) (by decide)
  · rfl

/-- The decimal text of an integer reads as the integer. -/
theorem parse?_display (i : Int64) : parse? (bytesOf (display i)) = some i := by
  have hdigits := digitBytes_isDigit i.toInt.natAbs
  have hempty : (digitBytes i.toInt.natAbs).isEmpty = false := by
    simpa using digitBytes_ne_nil i.toInt.natAbs
  have hall : (digitBytes i.toInt.natAbs).all Byte.isDigit = true := List.all_eq_true.2 hdigits
  have hle := i.le_toInt
  have hlt := i.toInt_lt
  have hbound : (-0x8000000000000000 ≤ i.toInt && i.toInt < 0x8000000000000000) = true := by
    simp only [Bool.and_eq_true, decide_eq_true_eq]
    omega
  rw [bytesOf_display]
  unfold parse?
  by_cases hneg : i.toInt < 0
  · have hsign : takeSign (0x2d :: digitBytes i.toInt.natAbs) = (true, digitBytes i.toInt.natAbs) := rfl
    have hvalue : -(i.toInt.natAbs : Int) = i.toInt := by omega
    rw [if_pos hneg, hsign]
    dsimp only
    rw [hempty, hall, digitsValue_digitBytes, if_pos rfl, hvalue, hbound, Int64.ofInt_toInt]
    rfl
  · have hvalue : (i.toInt.natAbs : Int) = i.toInt := by omega
    rw [if_neg hneg, takeSign_of_isDigit hdigits]
    dsimp only
    rw [hempty, hall, digitsValue_digitBytes, if_neg Bool.false_ne_true, hvalue, hbound, Int64.ofInt_toInt]
    rfl

end IntText

/-! ### Doubles -/

/-- Digits and points, with a digit in front. -/
def IsNumeral (cs : List Char) : Prop :=
  (∃ c ∈ cs.head?, c.isDigit) ∧ ∀ c ∈ cs, c.isDigit ∨ c = '.'

theorem isNumeral_of_isDigit {cs : List Char} (hne : cs ≠ []) (h : ∀ c ∈ cs, c.isDigit) : IsNumeral cs := by
  obtain ⟨c, rest, rfl⟩ := List.exists_cons_of_ne_nil hne
  exact ⟨⟨c, rfl, h c List.mem_cons_self⟩, fun d hd => .inl (h d hd)⟩

theorem IsNumeral.append {cs more : List Char} (h : IsNumeral cs) (hmore : ∀ c ∈ more, c.isDigit ∨ c = '.') :
    IsNumeral (cs ++ more) := by
  obtain ⟨⟨c, hc, hdigit⟩, hall⟩ := h
  refine ⟨⟨c, ?_, hdigit⟩, fun d hd => (List.mem_append.1 hd).elim (hall d) (hmore d)⟩
  rw [List.head?_append, Option.mem_def.1 hc]
  rfl

namespace DecimalDigits

theorem text_isDigit {ds : List Nat} (h : ∀ d ∈ ds, d < 10) : ∀ c ∈ text ds, c.isDigit := by
  have hdigit : ∀ d < 10, (digitChar d).isDigit := by decide
  intro c hc
  obtain ⟨d, hd, rfl⟩ := List.mem_map.1 hc
  exact hdigit d (h d hd)

theorem positional_isNumeral (x : DecimalDigits) (h : ∀ d ∈ x.digits, d < 10) : IsNumeral x.positional := by
  have hzeros (n : Nat) : ∀ c ∈ List.replicate n '0', c.isDigit := fun c hc => by
    rw [List.eq_of_mem_replicate hc]
    decide
  unfold positional
  split
  · have hzero : IsNumeral ['0'] := isNumeral_of_isDigit (by simp) (by simp)
    show IsNumeral (['0'] ++ ('.' :: List.replicate (-x.point).toNat '0' ++ text x.digits))
    refine hzero.append fun c hc => ?_
    rcases List.mem_append.1 hc with hc | hc
    · rcases List.mem_cons.1 hc with rfl | hc
      · exact .inr rfl
      · exact .inl (hzeros _ c hc)
    · exact .inl (text_isDigit h c hc)
  · next hpoint =>
    dsimp only
    split
    · next hshort =>
      refine isNumeral_of_isDigit (fun hnil => ?_) fun c hc => ?_
      · have hlength := congrArg List.length hnil
        rw [List.length_append, List.length_replicate, List.length_nil] at hlength
        unfold text at hlength
        rw [List.length_map] at hlength
        omega
      · exact (List.mem_append.1 hc).elim (text_isDigit h c) (hzeros _ c)
    · next hlong =>
      have hwhole : IsNumeral (text (x.digits.take x.point.toNat)) := by
        refine isNumeral_of_isDigit (fun hnil => ?_) (text_isDigit fun d hd => h d (List.mem_of_mem_take hd))
        have hlength := congrArg List.length hnil
        unfold text at hlength
        rw [List.length_map, List.length_take, List.length_nil] at hlength
        omega
      refine hwhole.append fun c hc => ?_
      rcases List.mem_cons.1 hc with rfl | hc
      · exact .inr rfl
      · exact .inl (text_isDigit (fun d hd => h d (List.mem_of_mem_drop hd)) c hc)

end DecimalDigits

theorem Shortest.digits_lt (tie : TieRule) (m : Nat) (e : Int) : ∀ d ∈ (Shortest.digits tie m e).digits, d < 10 := by
  intro d hd
  unfold digits stripZeros digitsOf at hd
  have hmem := List.dropWhile_subset _ (List.mem_reverse.1 hd)
  obtain ⟨c, hc, rfl⟩ := List.mem_map.1 (List.mem_reverse.1 hmem)
  have hdigit := Nat.isDigit_of_mem_toDigits (by decide) (by decide) hc
  simp only [Char.isDigit, Bool.and_eq_true, decide_eq_true_eq, ge_iff_le, UInt32.le_iff_toNat_le] at hdigit
  have hle : c.toNat ≤ 0x39 := hdigit.2
  omega

namespace FloatText

theorem positional_isNumeral (m : Nat) (e : Int) : IsNumeral (positional m e) := by
  unfold positional
  split
  · exact isNumeral_of_isDigit (by simp) (by simp)
  · exact DecimalDigits.positional_isNumeral _ (Shortest.digits_lt _ m e)

/-- A finite double is written as a numeral, possibly with a minus sign in front. -/
theorem literal_finite (negative : Bool) (m : Nat) (e : Int) (h : CanonicalParts m e) :
    ∃ cs, IsNumeral cs ∧ literal (.finite negative m e h) = signed negative cs := by
  have hdisplay : display (.finite negative m e h) = signed negative (positional m e) := rfl
  simp only [literal, hdisplay]
  split
  · next n _ =>
    split
    · have hwhole : IsNumeral (Nat.toDigits 10 n) :=
        isNumeral_of_isDigit Nat.toDigits_ne_nil fun _ => Nat.isDigit_of_mem_toDigits (by decide) (by decide)
      exact ⟨_, hwhole.append (by simp), rfl⟩
    · exact ⟨_, positional_isNumeral m e, rfl⟩
  · exact ⟨_, positional_isNumeral m e, rfl⟩

/-- The text of a finite double is a run of bytes of numbers, with a digit or a minus sign in front. -/
theorem literal_finite_bytes (negative : Bool) (m : Nat) (e : Int) (h : CanonicalParts m e) :
    (∃ b ∈ (bytesOf (literal (.finite negative m e h))).head?, b = 0x2d ∨ Byte.isDigit b) ∧
      ∀ b ∈ bytesOf (literal (.finite negative m e h)), Byte.isNumber b := by
  obtain ⟨cs, ⟨⟨c, hc, hfirst⟩, hall⟩, htext⟩ := literal_finite negative m e h
  have hbytes : ∀ b ∈ cs.flatMap utf8Bytes, Byte.isNumber b := by
    intro b hb
    obtain ⟨d, hd, hbd⟩ := List.mem_flatMap.1 hb
    rcases hall d hd with hdigit | rfl
    · obtain ⟨b', hb', hb'digit, -⟩ := digit_bytes hdigit
      rw [hb', List.mem_singleton] at hbd
      simp [Byte.isNumber, hbd, hb'digit]
    · rw [show utf8Bytes '.' = [0x2e] from rfl, List.mem_singleton] at hbd
      simp [Byte.isNumber, hbd]
  obtain ⟨b, hb, hdigit, -⟩ := digit_bytes hfirst
  have hhead : (cs.flatMap utf8Bytes).head? = some b := by
    obtain ⟨rest, rfl⟩ := List.head?_eq_some_iff.1 hc
    rw [List.flatMap_cons, hb]
    rfl
  rw [htext]
  unfold signed
  rw [bytesOf_ofList]
  cases negative with
  | false => exact ⟨⟨b, hhead, .inr hdigit⟩, hbytes⟩
  | true =>
    refine ⟨⟨0x2d, rfl, .inl rfl⟩, fun b' hb' => ?_⟩
    rcases List.mem_cons.1 (show b' ∈ 0x2d :: cs.flatMap utf8Bytes from hb') with rfl | hb'
    · decide
    · exact hbytes b' hb'

end FloatText

end GraphQL
