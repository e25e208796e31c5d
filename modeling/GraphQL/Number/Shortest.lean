import GraphQL.Number.Binary64

/-!
# Shortest decimal digits

The fewest decimal digits that read back as a given double, and of those with so few digits the nearest to it.

The reals that round to `m · 2 ^ e` form an interval around it, which contains its ends exactly when `m` is even.
For one digit after the other the two neighbours of the number on that decimal grid are tested; the first grid that
hits the interval wins. Two hits equally near are decided by `TieRule`.
-/

namespace GraphQL

/-- Which of two equally near decimals is taken. -/
inductive TieRule where
  /-- The greater one. -/
  | up
  /-- The one with an even last digit. -/
  | even
deriving DecidableEq, Repr

/-- The decimal number `0.d₁d₂…dₙ · 10 ^ point`. -/
structure DecimalDigits where
  digits : List Nat
  point : Int
deriving DecidableEq, Repr

namespace Shortest

/-- The exponent `p` with `10 ^ (p - 1) ≤ num / den < 10 ^ p`. -/
def decimalExponent (num den : Nat) : Int :=
  if den ≤ num then Binary64.decimalLength (num / den)
  else 1 - (Binary64.decimalLength ((den + num - 1) / num - 1) : Int)

/-- `10 ^ k` as a fraction. -/
def powerOfTen (k : Int) : Nat × Nat := if 0 ≤ k then (Nat.pow 10 k.toNat, 1) else (1, Nat.pow 10 (-k).toNat)

/-- Four times the ends of the interval of reals that round to `m · 2 ^ e`, in units of `2 ^ e`. Below a power of
two the next number is only half as far. -/
def interval (m : Nat) (e : Int) : Nat × Nat :=
  (if m = topBit ∧ e ≠ -1074 then 4 * m - 1 else 4 * m - 2, 4 * m + 2)

/-- Whether the decimal `d · 10 ^ k` rounds to `m · 2 ^ e`. -/
def readsBack (m : Nat) (e : Int) (d : Nat) (k : Int) : Bool :=
  let (lo, hi) := interval m e
  let (an, ad) := Binary64.magnitude 1 (e - 2)
  let (gn, gd) := powerOfTen k
  let x := d * gn * ad
  if m % 2 = 0 then lo * an * gd ≤ x && x ≤ hi * an * gd
  else lo * an * gd < x && x < hi * an * gd

/-- The multiple of `10 ^ k` nearest to `m · 2 ^ e` that rounds to it, as a number of such units. -/
def onGrid? (tie : TieRule) (m : Nat) (e : Int) (k : Int) : Option Nat :=
  let (num, den) := Binary64.magnitude m e
  let (gn, gd) := powerOfTen k
  let d := num * gd / (den * gn)
  let r := num * gd % (den * gn)
  match readsBack m e d k, readsBack m e (d + 1) k with
  | true, true =>
    if 2 * r < den * gn then some d
    else if den * gn < 2 * r then some (d + 1)
    else
      match tie with
      | .up => some (d + 1)
      | .even => some (if d % 2 = 0 then d else d + 1)
  | true, false => some d
  | false, true => some (d + 1)
  | false, false => none

/-- The first grid at or below `10 ^ (p - n)` that hits. Seventeen digits always do. -/
def search (tie : TieRule) (m : Nat) (e p : Int) : Nat → Nat → Nat × Int
  | 0, n => ((onGrid? tie m e (p - n)).getD 0, p - n)
  | more + 1, n =>
    match onGrid? tie m e (p - n) with
    | some d => (d, p - n)
    | none => search tie m e p more (n + 1)

/-- The decimal digits of `n`, the first one first. -/
def digitsOf (n : Nat) : List Nat := (Nat.toDigits 10 n).map fun c => c.toNat - 0x30

/-- The digits without trailing zeros. -/
def stripZeros (ds : List Nat) : List Nat := (ds.reverse.dropWhile (· == 0)).reverse

/-- The shortest digits of `m · 2 ^ e`, which is not zero. -/
def digits (tie : TieRule) (m : Nat) (e : Int) : DecimalDigits :=
  let (num, den) := Binary64.magnitude m e
  let (d, k) := search tie m e (decimalExponent num den) 16 1
  let ds := digitsOf d
  ⟨stripZeros ds, ds.length + k⟩

end Shortest

namespace DecimalDigits

/-- A digit as a character. -/
def digitChar (d : Nat) : Char := Char.ofNat (0x30 + d)

/-- Digits as text. -/
def text (ds : List Nat) : List Char := ds.map digitChar

/-- Positional form: every digit at its place, and no point if there is no fraction. -/
def positional (x : DecimalDigits) : List Char :=
  if x.point ≤ 0 then '0' :: '.' :: List.replicate (-x.point).toNat '0' ++ text x.digits
  else
    let p := x.point.toNat
    if x.digits.length ≤ p then text x.digits ++ List.replicate (p - x.digits.length) '0'
    else text (x.digits.take p) ++ '.' :: text (x.digits.drop p)

/-- Whether the positional form has a fraction. -/
def hasFraction (x : DecimalDigits) : Bool := x.point < x.digits.length

/-- Exponent form: one digit before the point, and the sign of the exponent always written. -/
def scientific (x : DecimalDigits) : List Char :=
  let exponent := x.point - 1
  let mantissa :=
    match x.digits with
    | [] => ['0']
    | [d] => [digitChar d]
    | d :: ds => digitChar d :: '.' :: text ds
  mantissa ++ 'e' :: (if exponent < 0 then '-' else '+') :: Nat.toDigits 10 exponent.natAbs

end DecimalDigits

end GraphQL
