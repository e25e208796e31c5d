import GraphQL.Json.Basic
import GraphQL.Text.Quoted
import GraphQL.Number.Literal

/-!
# Reading JSON text

`Json.parse` reads one JSON value and nothing else. A key that comes again in an object keeps its place and takes
the last value. At most 127 lists and
objects may be nested.

A number without fraction and exponent that fits 64 bits is an integer, save minus zero. Any other is a double: its
digits are collected as long as they fit a word of 64 bits, the rest counts as zeros, and one multiplication or
division by a power of ten follows. So the digits beyond the 16th may cost an ulp.
-/

namespace GraphQL

namespace Json

/-- What makes a text no JSON. -/
inductive Fault where
  | unfinishedList
  | unfinishedObject
  | unfinishedString
  | unfinishedValue
  | expectedColon
  | expectedListEnd
  | expectedObjectEnd
  | expectedIdent
  | expectedValue
  | invalidEscape
  | invalidNumber
  | numberOutOfRange
  | controlCharacter
  | keyNotString
  | loneSurrogate
  | trailingComma
  | trailingCharacters
  | unfinishedEscape
  | tooDeep
  | stalled
deriving DecidableEq, Repr

/-- The wording of a fault. -/
def Fault.message : Fault → String
  | unfinishedList => "EOF while parsing a list"
  | unfinishedObject => "EOF while parsing an object"
  | unfinishedString => "EOF while parsing a string"
  | unfinishedValue => "EOF while parsing a value"
  | expectedColon => "expected \x60:\x60"
  | expectedListEnd => "expected \x60,\x60 or \x60]\x60"
  | expectedObjectEnd => "expected \x60,\x60 or \x60\x7d\x60"
  | expectedIdent => "expected ident"
  | expectedValue => "expected value"
  | invalidEscape => "invalid escape"
  | invalidNumber => "invalid number"
  | numberOutOfRange => "number out of range"
  | controlCharacter => "control character (\\u0000-\\u001F) found while parsing a string"
  | keyNotString => "key must be a string"
  | loneSurrogate => "lone leading surrogate in hex escape"
  | trailingComma => "trailing comma"
  | trailingCharacters => "trailing characters"
  | unfinishedEscape => "unexpected end of hex escape"
  | tooDeep => "recursion limit exceeded"
  | stalled => "no progress"

/-- A fault after the given number of bytes of a line. -/
structure ParseError where
  fault : Fault
  line : Nat
  column : Nat
deriving DecidableEq, Repr

/-- The wording of a fault with its place. -/
def ParseError.message (e : ParseError) : String := s!"{e.fault.message} at line {e.line} column {e.column}"

/-- A reader of JSON text. -/
abbrev JsonReader := Reader ParseError

/-- Fails behind the bytes read so far. -/
def failHere {α : Type} (fault : Fault) : JsonReader α := do
  let s ← get
  throw ⟨fault, s.pos.line, s.pos.column - 1⟩

/-- Fails behind the next byte. -/
def failNext {α : Type} (fault : Fault) : JsonReader α := do
  let s := (← get).read.2
  throw ⟨fault, s.pos.line, s.pos.column - 1⟩

/-- The next byte, if there is one. -/
def next? : JsonReader (Option UInt8) := do return (← get).rest.head?

/-- Reads a byte, if there is one. -/
def read? : JsonReader (Option UInt8) := do
  let b ← next?
  modify fun s => s.read.2
  return b

/-- Reads a byte. -/
def skip : JsonReader Unit := discard read?

/-- Reads a run of bytes. -/
def span (p : UInt8 → Bool) : JsonReader (List UInt8) := modifyGet (Scanner.span p)

/-- Blanks of JSON. -/
def isBlank (b : UInt8) : Bool := b == 0x20 || b == 0x0a || b == 0x09 || b == 0x0d

/-- Skips blanks and gives the next byte. -/
def skipBlank : JsonReader (Option UInt8) := do
  discard (span isBlank)
  next?

/-- Reads the rest of a word. -/
def readWord : List UInt8 → JsonReader Unit
  | [] => pure ()
  | expected :: rest => do
    match ← read? with
    | none => failHere .unfinishedValue
    | some b => if b == expected then readWord rest else failHere .expectedIdent

/-! ### Numbers -/

/-- The greatest significand. -/
def maxSignificand : Nat := 0xffffffffffffffff

/-- Adds digits to a significand as long as it stays in range. Gives it with the number of digits taken. -/
def collect : List UInt8 → Nat → Nat × Nat
  | [], n => (n, 0)
  | b :: bs, n =>
    let m := n * 10 + (b.toNat - 0x30)
    if maxSignificand < m then (n, 0)
    else
      let (m, taken) := collect bs m
      (m, taken + 1)

/-- The double nearest to a power of ten. -/
def powerOfTen (n : Nat) : Binary64 := Binary64.ofDecimal false 1 n

/-- Divides by `10 ^ 308` until the exponent is in range, then by what is left. -/
def scaleDown : Nat → Binary64 → Nat → Binary64
  | 0, x, _ => x
  | fuel + 1, x, n =>
    if n ≤ 308 then x.div (powerOfTen n)
    else if x.isZero then x
    else scaleDown fuel (x.div (powerOfTen 308)) (n - 308)

/-- The double made of a significand and an exponent of ten. -/
def scaled (negative : Bool) (significand : Nat) (exponent : Int) : JsonReader Json := do
  let x := Binary64.ofInt significand
  let y ←
    if 0 ≤ exponent then
      if exponent ≤ 308 then
        let y := x.mul (powerOfTen exponent.toNat)
        if y.isFinite then pure y else failHere .numberOutOfRange
      else if x.isZero then pure x
      else failHere .numberOutOfRange
    else pure (scaleDown 8 x (-exponent).toNat)
  return .float (if negative then y.neg else y)

/-- The greatest exponent that is read as it is written. -/
def maxExponent : Nat := 0x7fffffff

/-- Reads an exponent, its mark included. -/
def readExponent (negative : Bool) (significand : Nat) (exponent : Int) : JsonReader Json := do
  skip
  let sign ← next?
  if sign == some 0x2b || sign == some 0x2d then skip
  match ← read? with
  | none => failHere .unfinishedValue
  | some first =>
    if !Byte.isDigit first then failHere .invalidNumber
    let s ← get
    let written := digitsValue (first :: (s.rest.takeWhile Byte.isDigit))
    if maxExponent < written then
      -- the place of the failure is the one behind the digits that still fit
      if significand != 0 && sign != some 0x2d then
        discard (readFitting (first.toNat - 0x30))
        failHere .numberOutOfRange
      discard (span Byte.isDigit)
      return .float (Binary64.zero negative)
    discard (span Byte.isDigit)
    scaled negative significand (if sign == some 0x2d then exponent - written else exponent + written)
where
  /-- Reads digits up to and including the one that leaves the range of exponents. -/
  readFitting (n : Nat) : JsonReader Unit := do
    let s ← get
    let (_, taken) := collectExponent s.rest n
    modify (Scanner.drop (taken + 1))
  /-- The number of digits that keep an exponent in range. -/
  collectExponent : List UInt8 → Nat → Nat × Nat
    | [], n => (n, 0)
    | b :: bs, n =>
      let m := n * 10 + (b.toNat - 0x30)
      if maxExponent < m then (n, 0)
      else
        let (m, taken) := collectExponent bs m
        (m, taken + 1)

/-- Goes on with an exponent if its mark is next. -/
def afterDigits (negative : Bool) (significand : Nat) (exponent : Int) : JsonReader Json := do
  match ← next? with
  | some 0x65 | some 0x45 => readExponent negative significand exponent
  | _ => scaled negative significand exponent

/-- Reads a fraction, its point included. -/
def readFraction (negative : Bool) (significand : Nat) (exponent : Int) : JsonReader Json := do
  skip
  let ds ← span Byte.isDigit
  if ds.isEmpty then
    failNext (if (← next?).isSome then .invalidNumber else .unfinishedValue)
  let (m, taken) := collect ds significand
  afterDigits negative m (exponent - taken)

/-- The magnitude of the least integer, and one more than the greatest. -/
def integerBound : Nat := 0x8000000000000000

/-- Goes on after the integer part of a number, of which `dropped` digits did not fit the significand. -/
def afterInteger (negative : Bool) (significand dropped : Nat) : JsonReader Json := do
  match ← next? with
  | some 0x2e => readFraction negative significand dropped
  | some 0x65 | some 0x45 => readExponent negative significand dropped
  | _ =>
    if dropped != 0 then scaled negative significand dropped
    else if negative then
      if significand = 0 || integerBound < significand then return .float (Binary64.ofInt significand).neg
      else return .int (Int64.ofInt (-(significand : Int)))
    else if significand < integerBound then return .int (Int64.ofInt significand)
    else return .float (Binary64.ofInt significand)

/-- Reads a number behind its sign. -/
def readNumber (negative : Bool) : JsonReader Json := do
  match ← read? with
  | none => failHere .unfinishedValue
  | some first =>
    if first == 0x30 then
      if ((← next?).map Byte.isDigit).getD false then failNext .invalidNumber
      afterInteger negative 0 0
    else if Byte.isDigit first then
      let ds := first :: (← span Byte.isDigit)
      let (m, taken) := collect ds 0
      afterInteger negative m (ds.length - taken)
    else failHere .invalidNumber

/-! ### Strings -/

/-- Reads four hexadecimal digits. -/
def readHex : JsonReader Nat := do
  match (← get).rest with
  | a :: b :: c :: d :: _ =>
    modify (Scanner.drop 4)
    match [a, b, c, d].mapM Byte.hexValue? with
    | some ds => return ds.foldl (fun n x => n * 16 + x) 0
    | none => failHere .invalidEscape
  | rest =>
    modify (Scanner.drop rest.length)
    failHere .unfinishedString

/-- Reads a byte that a pair of escapes needs. -/
def readPairByte (b : UInt8) : JsonReader Unit := do
  match ← read? with
  | none => failHere .unfinishedString
  | some found => if found == b then pure () else failHere .unfinishedEscape

/-- Reads what follows `\u`. -/
def readUnicode : JsonReader Char := do
  let high ← readHex
  if 0xdc00 ≤ high && high ≤ 0xdfff then failHere .loneSurrogate
  else if 0xd800 ≤ high && high ≤ 0xdbff then
    readPairByte 0x5c
    readPairByte 0x75
    let low ← readHex
    if 0xdc00 ≤ low && low ≤ 0xdfff then
      return Char.ofNat (0x10000 + (high - 0xd800) * 0x400 + (low - 0xdc00))
    else failHere .loneSurrogate
  else return Char.ofNat high

/-- Reads what follows a backslash. -/
def readEscape : JsonReader Char := do
  match ← read? with
  | none => failHere .unfinishedString
  | some b =>
    match b.toNat with
    | 0x22 => return '\"'
    | 0x5c => return '\\'
    | 0x2f => return '/'
    | 0x62 => return '\x08'
    | 0x66 => return '\x0c'
    | 0x6e => return '\n'
    | 0x72 => return '\r'
    | 0x74 => return '\t'
    | 0x75 => readUnicode
    | _ => failHere .invalidEscape

/-- The place where a reader gave up without consuming anything. -/
def stalledAt (s : Scanner) : ParseError := ⟨.stalled, s.pos.line, s.pos.column - 1⟩

/-- A byte that stands for itself in a JSON string. -/
def isPlain (b : UInt8) : Bool := 0x20 ≤ b && b != 0x22 && b != 0x5c

/-- Reads a string to its closing quotation mark. -/
def readStringBody : JsonReader (List UInt8) := Reader.fix stalledAt fun more => do
  let run ← span isPlain
  match ← read? with
  | none => failHere .unfinishedString
  | some b =>
    if b == 0x22 then return run
    else if b == 0x5c then
      let c ← readEscape
      return run ++ utf8Bytes c ++ (← more)
    else failHere .controlCharacter

/-- Reads a string behind its opening quotation mark. -/
def readString : JsonReader String := do return (utf8Text? (← readStringBody)).getD ""

/-! ### Values -/

/-- Reads the items of a list that are left, each behind a comma, and the end of the list. -/
def readMoreItems (value : JsonReader Json) : JsonReader (List Json) := Reader.fix stalledAt fun more => do
  match ← skipBlank with
  | none => failNext .unfinishedList
  | some b =>
    if b == 0x5d then
      skip
      return []
    if b != 0x2c then failNext .expectedListEnd
    skip
    match ← skipBlank with
    | none => failNext .unfinishedValue
    | some b =>
      if b == 0x5d then failNext .trailingComma
      let item ← value
      return item :: (← more)

/-- Reads a list behind its opening bracket. -/
def readList (value : JsonReader Json) : JsonReader Json := do
  match ← skipBlank with
  | none => failNext .unfinishedList
  | some b =>
    if b == 0x5d then
      skip
      return .array []
    let item ← value
    return .array (item :: (← readMoreItems value))

/-- Reads a key, whose opening quotation mark is next, and its value. -/
def readMember (value : JsonReader Json) : JsonReader (String × Json) := do
  skip
  let key ← readString
  match ← skipBlank with
  | none => failNext .unfinishedObject
  | some b =>
    if b != 0x3a then failNext .expectedColon
    skip
    return (key, ← value)

/-- Reads the members of an object that are left, each behind a comma, and the end of the object. -/
def readMoreMembers (value : JsonReader Json) : JsonReader (List (String × Json)) :=
  Reader.fix stalledAt fun more => do
    match ← skipBlank with
    | none => failNext .unfinishedObject
    | some b =>
      if b == 0x7d then
        skip
        return []
      if b != 0x2c then failNext .expectedObjectEnd
      skip
      match ← skipBlank with
      | none => failNext .unfinishedValue
      | some b =>
        if b == 0x7d then failNext .trailingComma
        if b != 0x22 then failNext .keyNotString
        let member ← readMember value
        return member :: (← more)

/-- Reads an object behind its opening brace. -/
def readObject (value : JsonReader Json) : JsonReader Json := do
  match ← skipBlank with
  | none => failNext .unfinishedObject
  | some b =>
    if b == 0x7d then
      skip
      return .object []
    if b != 0x22 then failNext .keyNotString
    let member ← readMember value
    return .object (Entries.ofList (member :: (← readMoreMembers value)))

/-- Reads a value of at most `levels` levels. -/
def readValue : Nat → JsonReader Json
  | 0 => failNext .tooDeep
  | levels + 1 => do
    match ← skipBlank with
    | none => failNext .unfinishedValue
    | some b =>
      match b.toNat with
      | 0x6e => skip; readWord [0x75, 0x6c, 0x6c]; return .null
      | 0x74 => skip; readWord [0x72, 0x75, 0x65]; return .bool true
      | 0x66 => skip; readWord [0x61, 0x6c, 0x73, 0x65]; return .bool false
      | 0x2d => skip; readNumber true
      | 0x22 => skip; return .string (← readString)
      | 0x5b => if levels = 0 then failNext .tooDeep else skip; readList (readValue levels)
      | 0x7b => if levels = 0 then failNext .tooDeep else skip; readObject (readValue levels)
      | _ => if Byte.isDigit b then readNumber false else failNext .expectedValue

/-- Reads a whole text. -/
def readText : JsonReader Json := do
  let json ← readValue 128
  if (← skipBlank).isSome then failNext .trailingCharacters
  return json

/-- The JSON value that a text is. -/
def parse (text : String) : Except ParseError Json :=
  match readText ⟨text.toUTF8.toList, .start, none⟩ with
  | .ok json _ => .ok json
  | .error e _ => .error e

end Json

end GraphQL
