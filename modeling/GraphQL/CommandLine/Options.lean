import GraphQL.Keyed

/-!
# Options of a command line

A command has options, each with a long name and possibly a letter, and may take files. An option with a value takes
the next argument, or what follows an equals sign or the letter; flags may share one dash. Two dashes alone end the
options. An argument that looks like an option is never the value of another one.
-/

namespace GraphQL.CommandLine

/-- What an option is given with. -/
inductive OptionKind where
  | flag
  /-- A path, which may not be empty. -/
  | path
  | text
  | number
  /-- Shows the help of the command instead of running it. -/
  | help
  /-- Shows the version instead of running a command. -/
  | version
deriving DecidableEq, Repr

/-- An option. -/
structure OptionSpec where
  long : String
  letter : Option Char := none
  kind : OptionKind
  /-- May come more than once. -/
  repeatable : Bool := false

instance : HasName OptionSpec := ⟨OptionSpec.long⟩

/-- Why a command is not run. -/
inductive Stop where
  /-- The arguments are wrong. -/
  | usage
  | help
  | version
deriving DecidableEq, Repr

/-- The arguments of a command as far as they are read. -/
structure Parsed where
  /-- The options with their values, which are empty for flags. -/
  options : List (String × String) := []
  /-- The arguments that are no options. -/
  operands : List String := []

namespace Parsed

/-- The option is given. -/
def has (parsed : Parsed) (long : String) : Bool := Entries.contains long parsed.options

/-- The value of an option. -/
def value? (parsed : Parsed) (long : String) : Option String := Entries.get? long parsed.options

/-- All values of an option. -/
def values (parsed : Parsed) (long : String) : List String := (parsed.options.filter (·.1 == long)).map Prod.snd

end Parsed

/-- The largest number that an option may have. -/
def maxNumber : Nat := 0xffffffffffffffff

/-- The number that a text is, possibly with a plus sign. -/
def number? (text : String) : Option Nat :=
  let digits :=
    match text.toList with
    | '+' :: rest => rest
    | cs => cs
  if digits.isEmpty || !digits.all Char.isDigit then none
  else
    let n := digits.foldl (fun n c => n * 10 + (c.toNat - '0'.toNat)) 0
    if n ≤ maxNumber then some n else none

/-- The text can be the value of an option of the kind. -/
def OptionKind.allows (kind : OptionKind) (text : String) : Bool :=
  match kind with
  | path => !text.isEmpty
  | number => (number? text).isSome
  | _ => true

/-- Reading can go on: the option that still needs a value, and what is read. -/
abbrev Progress := Except Stop (Option OptionSpec × Parsed)

namespace OptionSpec

/-- An option takes a value. -/
def takesValue (spec : OptionSpec) : Bool :=
  match spec.kind with
  | .path | .text | .number => true
  | _ => false

/-- Notes an option with its value. -/
def give (spec : OptionSpec) (parsed : Parsed) (value : String) : Except Stop Parsed :=
  if parsed.has spec.long && !spec.repeatable then .error .usage
  else if !spec.kind.allows value then .error .usage
  else .ok { parsed with options := parsed.options ++ [(spec.long, value)] }

/-- Notes an option that is given without a value. -/
def giveAlone (spec : OptionSpec) (parsed : Parsed) : Progress :=
  match spec.kind with
  | .help => .error .help
  | .version => .error .version
  | .flag => (spec.give parsed "").map (none, ·)
  | _ => .ok (some spec, parsed)

/-- Notes an option that is given with a value. -/
def giveValue (spec : OptionSpec) (parsed : Parsed) (value : String) : Progress :=
  if spec.takesValue then (spec.give parsed value).map (none, ·) else .error .usage

end OptionSpec

/-- Reads an option by its long name, possibly with a value after an equals sign. -/
def readLong (specs : List OptionSpec) (parsed : Parsed) (text : List Char) : Progress :=
  let name := String.ofList (text.takeWhile (· != '='))
  match Members.get? name specs, text.dropWhile (· != '=') with
  | none, _ => .error .usage
  | some spec, _ :: value => spec.giveValue parsed (String.ofList value)
  | some spec, [] => spec.giveAlone parsed

/-- The value behind a letter; an equals sign in between does not belong to it. -/
def attached : List Char → String
  | '=' :: rest => String.ofList rest
  | cs => String.ofList cs

/-- Reads options by their letters. -/
def readLetters (specs : List OptionSpec) (parsed : Parsed) : List Char → Progress
  | [] => .ok (none, parsed)
  | letter :: rest =>
    match specs.find? (·.letter == some letter) with
    | none => .error .usage
    | some spec =>
      match spec.takesValue, rest with
      | true, _ :: _ => spec.giveValue parsed (attached rest)
      | true, [] => spec.giveAlone parsed
      | false, rest => do
        let (_, parsed) ← spec.giveAlone parsed
        readLetters specs parsed rest

/-- How an argument looks. -/
inductive Look where
  /-- Two dashes alone. -/
  | ending
  | long (text : List Char)
  | letters (text : List Char)
  | operand
deriving DecidableEq, Repr

/-- How an argument looks. -/
def Look.of (argument : String) : Look :=
  match argument.toList with
  | ['-', '-'] => ending
  | '-' :: '-' :: rest => long rest
  | ['-'] => operand
  | '-' :: rest => letters rest
  | _ => operand

/-- Adds arguments that are no options, if the command takes any. -/
def addOperands (takesOperands : Bool) (parsed : Parsed) (arguments : List String) : Except Stop Parsed :=
  if arguments.isEmpty then .ok parsed
  else if takesOperands && arguments.all (!·.isEmpty) then
    .ok { parsed with operands := parsed.operands ++ arguments }
  else .error .usage

/-- Reads arguments while `pending` waits for a value. -/
def readArguments (specs : List OptionSpec) (takesOperands : Bool) :
    Option OptionSpec → Parsed → List String → Except Stop Parsed
  | none, parsed, [] => .ok parsed
  | some _, _, [] => .error .usage
  | pending, parsed, argument :: rest =>
    match Look.of argument, pending with
    | .operand, some spec => do
      let (pending, parsed) ← spec.giveValue parsed argument
      readArguments specs takesOperands pending parsed rest
    | _, some _ => .error .usage
    | .operand, none => do
      let parsed ← addOperands takesOperands parsed [argument]
      readArguments specs takesOperands none parsed rest
    | .ending, none => addOperands takesOperands parsed rest
    | .long text, none => do
      let (pending, parsed) ← readLong specs parsed text
      readArguments specs takesOperands pending parsed rest
    | .letters text, none => do
      let (pending, parsed) ← readLetters specs parsed text
      readArguments specs takesOperands pending parsed rest

/-- Reads options up to the first argument that is none, which is given with what follows it. -/
def readLeading (specs : List OptionSpec) : Parsed → List String → Except Stop (Parsed × String × List String)
  | _, [] => .error .usage
  | parsed, argument :: rest =>
    match Look.of argument with
    | .operand => .ok (parsed, argument, rest)
    | .ending => .error .usage
    | .long text => do
      let (_, parsed) ← readLong specs parsed text
      readLeading specs parsed rest
    | .letters text => do
      let (_, parsed) ← readLetters specs parsed text
      readLeading specs parsed rest

end GraphQL.CommandLine
