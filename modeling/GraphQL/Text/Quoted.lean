import GraphQL.Text.Parser
import GraphQL.Text.BlockString

/-!
# Quoted strings

A string between quotation marks lies on one line and knows the escapes of JSON; `writeQuoted` writes one that
reads back. Between triple quotation marks lies a block string, whose value is the text that
`BlockString.value` leaves of it.
-/

namespace GraphQL

/-- The text encoded by `bs`, if they are valid UTF-8. -/
def utf8Text? (bs : List UInt8) : Option String := String.fromUTF8? ⟨bs.toArray⟩

/-- The UTF-8 bytes of a character. -/
def utf8Bytes (c : Char) : List UInt8 := String.utf8EncodeChar c

namespace Parser

/-- Reads `n` hexadecimal digits into a number that starts as `value`. -/
def readHex (pos : Pos) : Nat → Nat → Parser Nat
  | 0, value => pure value
  | n + 1, value => do
    match Byte.hexValue? (← readByte) with
    | some digit => readHex pos n (value * 16 + digit)
    | none => failAt pos .invalidUnicodeEscape

/-- Reads what follows `\u`. A character outside the basic plane is written as a pair of escapes. -/
def readUnicodeEscape (pos : Pos) : Parser Char := do
  let high ← readHex pos 4 0
  if 0xd800 ≤ high && high < 0xdc00 then
    if (← readByte) != 0x5c then failAt pos .unpairedSurrogate
    if (← readByte) != 0x75 then failAt pos .unpairedSurrogate
    let low ← readHex pos 4 0
    if 0xdc00 ≤ low && low < 0xe000 then
      return Char.ofNat (0x10000 + (high - 0xd800) * 0x400 + (low - 0xdc00))
    else failAt pos .unpairedSurrogate
  else if 0xdc00 ≤ high && high < 0xe000 then failAt pos .invalidUnicodeEscape
  else return Char.ofNat high

/-- Reads what follows a backslash. -/
def readEscape : Parser Char := do
  let pos ← position
  let b ← readByte
  match b.toNat with
  | 0x22 => return '\"'
  | 0x5c => return '\\'
  | 0x2f => return '/'
  | 0x62 => return '\x08'
  | 0x66 => return '\x0c'
  | 0x6e => return '\n'
  | 0x72 => return '\r'
  | 0x74 => return '\t'
  | 0x75 => readUnicodeEscape pos
  | _ => failAt pos (.invalidEscape b)

/-- A byte that stands for itself in a quoted string. -/
def isPlain (b : UInt8) : Bool := b != 0 && b != 0x0a && b != 0x22 && b != 0x5c

/-- Reads to the closing quotation mark. -/
def quotedBody (start : Pos) : Parser (List UInt8) := fix fun more => do
  let run ← span isPlain
  let b ← readByte
  if b == 0x22 then return run
  else if b == 0x5c then
    let c ← readEscape
    return run ++ utf8Bytes c ++ (← more)
  else failAt start .unterminatedString

/-- A byte that stands for itself in a block string whatever follows it. -/
def isBlockPlain (b : UInt8) : Bool := b != 0x22 && b != 0x5c

/-- Reads to the closing triple of quotation marks, which a backslash keeps from closing. -/
def blockBody (start : Pos) : Parser (List UInt8) := fix fun more => do
  let run ← span isBlockPlain
  let s ← get
  match s.rest with
  | 0x22 :: 0x22 :: 0x22 :: _ =>
    drop 3
    return run
  | 0x5c :: 0x22 :: 0x22 :: 0x22 :: _ =>
    drop 4
    return run ++ [0x22, 0x22, 0x22] ++ (← more)
  | _ :: _ =>
    let b ← readByte
    return run ++ b :: (← more)
  | [] => failAt start .unterminatedBlockString

/-- Reads a string, whose opening quotation mark must be the next byte. -/
def readString : Parser String := do
  let start ← position
  let s ← get
  if s.peek != 0x22 then fail (.expected "string" s.peek)
  else if s.peekAt 1 == 0x22 && s.peekAt 2 == 0x22 then
    drop 3
    match utf8Text? (← blockBody start) with
    | some raw => return BlockString.value raw
    | none => failAt start .invalidUtf8
  else
    discard readByte
    match utf8Text? (← quotedBody start) with
    | some text => return text
    | none => failAt start .invalidUtf8

end Parser

namespace Quoted

/-- Control characters, which are written as escapes: below the space and from DEL to U+009F. -/
def isControl (c : Char) : Bool := c.toNat < 0x20 || (0x7f ≤ c.toNat && c.toNat ≤ 0x9f)

/-- The escape of a character by its code, in four hexadecimal digits. -/
def unicodeEscape (c : Char) : List Char :=
  let n := c.toNat
  ['\\', 'u', Byte.hexDigit (n / 0x1000 % 16), Byte.hexDigit (n / 0x100 % 16), Byte.hexDigit (n / 0x10 % 16),
    Byte.hexDigit (n % 16)]

/-- A character inside quotation marks. -/
def writeChar (c : Char) : List Char :=
  if c == '\"' then ['\\', '\"']
  else if c == '\\' then ['\\', '\\']
  else if c == '\n' then ['\\', 'n']
  else if c == '\r' then ['\\', 'r']
  else if c == '\t' then ['\\', 't']
  else if isControl c then unicodeEscape c
  else [c]

/-- A text between quotation marks. -/
def write (text : String) : String :=
  String.ofList ('\"' :: text.toList.flatMap writeChar ++ ['\"'])

end Quoted

end GraphQL
