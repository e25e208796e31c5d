import GraphQL.Number.Literal
import GraphQL.Time.Calendar

/-!
# Timestamps

A point in time with the offset it is shown in, read and written as RFC 3339 describes. A leap second is the 59th
second with a thousand million nanoseconds or more.
-/

namespace GraphQL

/-- A point in time, `seconds` and `nanos` after the start of 1970 in universal time, shown at an offset of `offset`
seconds east of it. -/
structure Timestamp where
  seconds : Int
  nanos : Nat
  offset : Int
deriving DecidableEq, Repr

namespace Timestamp

/-- The first second of the calendar that timestamps cover. -/
def firstSecond : Int := -8334601228800

/-- The last second of the calendar that timestamps cover. -/
def lastSecond : Int := 8210266876799

/-- The time that many seconds and nanoseconds after the start of 1970, if the calendar covers it. -/
def ofEpoch? (seconds : Int) (nanos : Nat) : Option Timestamp :=
  if firstSecond ≤ seconds && seconds ≤ lastSecond then some ⟨seconds, nanos, 0⟩ else none

/-- The nearest time that many seconds after the start of 1970, if the calendar covers it. Not a number counts as
zero. -/
def ofFloat? (x : Binary64) : Option Timestamp :=
  match x.floor?, x.fraction? with
  | some whole, some fraction =>
    let nanos := (fraction.mul (Binary64.ofInt 1000000000)).roundHalfUp
    if nanos < 1000000000 then ofEpoch? whole nanos else ofEpoch? (whole + 1) (nanos - 1000000000)
  | _, _ => if x = .nan then ofEpoch? 0 0 else none

/-- The same point in time, shown in universal time. -/
def toUniversal (t : Timestamp) : Timestamp := { t with offset := 0 }

/-- The decimal digits of `n`, with zeros in front up to the given width. -/
def padded (width n : Nat) : List Char :=
  let ds := Nat.toDigits 10 n
  List.replicate (width - ds.length) '0' ++ ds

/-- A year: four digits, and a sign in front of one that needs more or is negative. -/
def yearText (year : Int) : List Char :=
  if 0 ≤ year && year ≤ 9999 then padded 4 year.toNat
  else (if year < 0 then '-' else '+') :: padded 4 year.natAbs

/-- An offset, `Z` for none. -/
def offsetText (offset : Int) : List Char :=
  if offset = 0 then ['Z']
  else
    let minutes := offset.natAbs / 60
    (if offset < 0 then '-' else '+') :: padded 2 (minutes / 60) ++ ':' :: padded 2 (minutes % 60)

/-- The written form, always with nanoseconds. -/
def text (t : Timestamp) : String :=
  let shown := t.seconds + t.offset
  let date := Date.ofDays (shown / 86400)
  let second := (shown % 86400).toNat
  String.ofList <|
    yearText date.year ++ '-' :: padded 2 date.month ++ '-' :: padded 2 date.day ++ 'T' ::
      padded 2 (second / 3600) ++ ':' :: padded 2 (second / 60 % 60) ++ ':' ::
      padded 2 (second % 60 + t.nanos / 1000000000) ++ '.' :: padded 9 (t.nanos % 1000000000) ++
      offsetText t.offset

/-- Reads exactly `n` decimal digits. -/
def takeNumber? (n : Nat) (cs : List Char) : Option (Nat × List Char) :=
  let ds := cs.take n
  if ds.length = n && ds.all Char.isDigit then
    some (ds.foldl (fun v c => v * 10 + (c.toNat - 0x30)) 0, cs.drop n)
  else none

/-- Reads the given character. -/
def takeChar? (c : Char) : List Char → Option (List Char)
  | d :: cs => if d = c then some cs else none
  | [] => none

/-- Reads what stands between date and time. -/
def takeSeparator? : List Char → Option (List Char)
  | c :: cs => if c = 'T' ∨ c = 't' ∨ c = ' ' then some cs else none
  | [] => none

/-- Reads a fraction of a second as nanoseconds. Digits past the ninth do not count. -/
def takeNanos? : List Char → Option (Nat × List Char)
  | '.' :: cs =>
    let ds := cs.takeWhile Char.isDigit
    if ds.isEmpty then none
    else
      let kept := (ds ++ List.replicate 9 '0').take 9
      some (kept.foldl (fun v c => v * 10 + (c.toNat - 0x30)) 0, cs.dropWhile Char.isDigit)
  | cs => some (0, cs)

/-- Reads an offset, in seconds, up to the end. The minus sign proper may stand for the hyphen. -/
def offset? (cs : List Char) : Option Int := do
  match cs with
  | ['Z'] | ['z'] => return 0
  | sign :: cs =>
    let negative ← if sign = '+' then some false else if sign = '-' ∨ sign = '\u2212' then some true else none
    let (hours, cs) ← takeNumber? 2 cs
    let cs ← takeChar? ':' cs
    let (minutes, cs) ← takeNumber? 2 cs
    if cs.isEmpty && hours ≤ 23 && minutes ≤ 59 then
      let seconds : Int := (hours * 60 + minutes) * 60
      return if negative then -seconds else seconds
    else none
  | [] => none

/-- Reads a written time. The second 60 is kept as a leap second. -/
def parse? (text : String) : Option Timestamp := do
  let (year, cs) ← takeNumber? 4 text.toList
  let cs ← takeChar? '-' cs
  let (month, cs) ← takeNumber? 2 cs
  let cs ← takeChar? '-' cs
  let (day, cs) ← takeNumber? 2 cs
  let cs ← takeSeparator? cs
  let (hour, cs) ← takeNumber? 2 cs
  let cs ← takeChar? ':' cs
  let (minute, cs) ← takeNumber? 2 cs
  let cs ← takeChar? ':' cs
  let (second, cs) ← takeNumber? 2 cs
  let (nanos, cs) ← takeNanos? cs
  let offset ← offset? cs
  let date : Date := ⟨year, month, day⟩
  if date.isValid && hour ≤ 23 && minute ≤ 59 && second ≤ 60 then
    let seconds := date.toDays * 86400 + (hour * 3600 + minute * 60 + min second 59 : Nat) - offset
    return ⟨seconds, if second = 60 then nanos + 1000000000 else nanos, offset⟩
  else none

end Timestamp

end GraphQL
