/-!
# Binary floating point numbers

The double-precision numbers of IEEE 754 as exact values: a finite one is `± m · 2 ^ e` with `m` and `e` in the one
canonical form, so that equal numbers are equal terms (the two zeros differ by their sign). All not-a-numbers are
one. Every operation computes the exact rational result and hands it to `Binary64.round`, which gives the nearest
number, a tie going to the even mantissa.
-/

namespace GraphQL

/-- The highest bit of a full mantissa, `2 ^ 52`. -/
abbrev topBit : Nat := 0x10000000000000

/-- The canonical form of `m · 2 ^ e`: 53 bits of mantissa, or fewer at the smallest exponent. -/
def CanonicalParts (m : Nat) (e : Int) : Prop :=
  (m < topBit ∧ e = -1074) ∨ (topBit ≤ m ∧ m < 2 * topBit ∧ -1074 ≤ e ∧ e ≤ 971)

instance (m : Nat) (e : Int) : Decidable (CanonicalParts m e) :=
  inferInstanceAs (Decidable (_ ∨ _))

/-- A double-precision number. -/
inductive Binary64 where
  /-- `± m · 2 ^ e` -/
  | finite (negative : Bool) (m : Nat) (e : Int) (canonical : CanonicalParts m e)
  | infinity (negative : Bool)
  | nan
deriving DecidableEq

namespace Binary64

instance : Inhabited Binary64 := ⟨.nan⟩

/-- Zero of either sign. -/
def zero (negative : Bool) : Binary64 := .finite negative 0 (-1074) (.inl ⟨by decide, rfl⟩)

/-- `± m · 2 ^ e` for canonical parts; anything else is out of range. -/
def ofParts (negative : Bool) (m : Nat) (e : Int) : Binary64 :=
  if h : CanonicalParts m e then .finite negative m e h else .infinity negative

/-- The natural number nearest to `num / den`, a tie going to the even one. -/
def roundHalfEven (num den : Nat) : Nat :=
  let q := num / den
  let r := num % den
  if 2 * r < den then q
  else if den < 2 * r then q + 1
  else if q % 2 = 0 then q else q + 1

/-- `num · 2 ^ k / den` as a fraction of natural numbers. -/
def scaleByTwo (num den : Nat) (k : Int) : Nat × Nat :=
  if 0 ≤ k then (num <<< k.toNat, den) else (num, den <<< (-k).toNat)

/-- The exponent `k` with `2 ^ k ≤ num / den < 2 ^ (k + 1)`. -/
def binaryExponent (num den : Nat) : Int :=
  let k : Int := (Nat.log2 num : Int) - (Nat.log2 den : Int)
  let (n, d) := scaleByTwo num den (-k)
  if d ≤ n then k else k - 1

/-- The number nearest to `± num / den`. -/
def round (negative : Bool) (num den : Nat) : Binary64 :=
  if num = 0 then zero negative
  else
    let e := max (-1074) (binaryExponent num den - 52)
    let (n, d) := scaleByTwo num den (-e)
    let m := roundHalfEven n d
    if m = 2 * topBit then ofParts negative topBit (e + 1) else ofParts negative m e

/-- The magnitude of `m · 2 ^ e` as a fraction. -/
def magnitude (m : Nat) (e : Int) : Nat × Nat := scaleByTwo m 1 e

/-- The number nearest to an integer. -/
def ofInt (i : Int) : Binary64 := round (i < 0) i.natAbs 1

/-- The number of decimal digits of `n`; none for zero. -/
def decimalLength (n : Nat) : Nat := if n = 0 then 0 else (Nat.toDigits 10 n).length

/-- The number nearest to `± digits · 10 ^ exponent`. The two bounds keep the powers small: the first is beyond the
largest number, the second below half of the smallest. -/
def ofDecimal (negative : Bool) (digits : Nat) (exponent : Int) : Binary64 :=
  let order := (decimalLength digits : Int) + exponent
  if digits = 0 then zero negative
  else if 310 < order then .infinity negative
  else if order < -330 then zero negative
  else if 0 ≤ exponent then round negative (digits * Nat.pow 10 exponent.toNat) 1
  else round negative digits (Nat.pow 10 (-exponent).toNat)

/-- Neither infinite nor not a number. -/
def isFinite : Binary64 → Bool
  | finite .. => true
  | _ => false

/-- The integer part of `m · 2 ^ e`, and whether it is all of it. -/
def wholePart (m : Nat) (e : Int) : Nat × Bool :=
  let (num, den) := magnitude m e
  (num / den, num % den == 0)

/-- The integer that a finite number is, if it is one. -/
def toInt? : Binary64 → Option Int
  | finite negative m e _ =>
    match wholePart m e with
    | (n, true) => some (if negative then -(n : Int) else n)
    | (_, false) => none
  | _ => none

/-- The greatest integer that is not above a finite number. -/
def floor? : Binary64 → Option Int
  | finite negative m e _ =>
    match wholePart m e with
    | (n, true) => some (if negative then -(n : Int) else n)
    | (n, false) => some (if negative then -(n : Int) - 1 else n)
  | _ => none

/-- Zero of either sign. -/
def isZero : Binary64 → Bool
  | finite _ m _ _ => m == 0
  | _ => false

/-- The negative of a number. -/
def neg : Binary64 → Binary64
  | finite negative m e h => finite (!negative) m e h
  | infinity negative => infinity (!negative)
  | nan => nan

/-- The product of two numbers of which none is infinite; of others, not a number. -/
def mul : Binary64 → Binary64 → Binary64
  | finite s m e _, finite t n f _ =>
    let (a, b) := magnitude m e
    let (c, d) := magnitude n f
    round (s != t) (a * c) (b * d)
  | _, _ => nan

/-- The quotient of a number that is not infinite by a finite one other than zero; of others, not a number. -/
def div : Binary64 → Binary64 → Binary64
  | finite s m e _, finite t n f _ =>
    let (a, b) := magnitude m e
    let (c, d) := magnitude n f
    if c = 0 then nan else round (s != t) (a * d) (b * c)
  | _, _ => nan

/-- The distance of a finite number from its floor, rounded. -/
def fraction? : Binary64 → Option Binary64
  | finite negative m e _ =>
    let (num, den) := magnitude m e
    let r := num % den
    some (round false (if negative && r != 0 then den - r else r) den)
  | _ => none

/-- The integer nearest to a finite number that is not negative, a half going up. -/
def roundHalfUp : Binary64 → Nat
  | finite _ m e _ =>
    let (num, den) := magnitude m e
    (2 * num + den) / (2 * den)
  | _ => 0

/-- The bit of the interchange format that holds the sign, `2 ^ 63`. -/
def signBit : Nat := 0x8000000000000000

/-- The number with the given bits of the interchange format. -/
def ofBits (bits : UInt64) : Binary64 :=
  let n := bits.toNat
  let negative := decide (signBit ≤ n)
  let field : Nat := n / topBit % 0x800
  let m : Nat := n % topBit
  if field = 0x7ff then (if m = 0 then .infinity negative else .nan)
  else if field = 0 then ofParts negative m (-1074)
  else ofParts negative (topBit + m) ((field : Int) - 1075)

/-- The bits of the interchange format. -/
def toBits (x : Binary64) : UInt64 :=
  let word (negative : Bool) (field m : Nat) : UInt64 :=
    UInt64.ofNat ((if negative then signBit else 0) + field * topBit + m)
  match x with
  | finite negative m e _ =>
    if m < topBit then word negative 0 m else word negative (e + 1075).toNat (m - topBit)
  | infinity negative => word negative 0x7ff 0
  | nan => word false 0x7ff (topBit / 2)

end Binary64

end GraphQL
