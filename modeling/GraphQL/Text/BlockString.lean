/-!
# Block strings

The value of a block string leaves out the indentation that is common to its lines and the blank lines at both
ends. The first line stands behind the opening marks, so it neither has an indentation to lose nor takes part in
finding the common one.
-/

namespace GraphQL.BlockString

/-- The characters between newlines, one list more than there are newlines. -/
def splitLines : List Char → List (List Char)
  | [] => [[]]
  | c :: cs =>
    if c = '\n' then [] :: splitLines cs
    else
      match splitLines cs with
      | line :: lines => (c :: line) :: lines
      | [] => [[c]]

/-- A line without one carriage return at its end. -/
def dropReturn (line : List Char) : List Char :=
  if line.getLast? = some '\r' then line.dropLast else line

/-- Spaces and tabs indent. -/
def isIndent (c : Char) : Bool := c == ' ' || c == '\t'

/-- How many characters a line is indented by. -/
def indentOf (line : List Char) : Nat := (line.takeWhile isIndent).length

/-- A line of spaces and tabs only. -/
def isBlank (line : List Char) : Bool := line.all isIndent

/-- The smallest indentation among the lines that are not blank; zero if all are. -/
def commonIndent (lines : List (List Char)) : Nat :=
  ((lines.filter (!isBlank ·)).map indentOf).min?.getD 0

/-- The lines without the blank ones at both ends. -/
def trimBlank (lines : List (List Char)) : List (List Char) :=
  ((lines.dropWhile isBlank).reverse.dropWhile isBlank).reverse

/-- The lines of a block string's value. -/
def valueLines (raw : List Char) : List (List Char) :=
  match (splitLines raw).map dropReturn with
  | [] => []
  | first :: others => trimBlank (first :: others.map (List.drop (commonIndent others)))

/-- The value of a block string with the given text between its marks. -/
def value (raw : String) : String := String.ofList (['\n'].intercalate (valueLines raw.toList))

end GraphQL.BlockString
