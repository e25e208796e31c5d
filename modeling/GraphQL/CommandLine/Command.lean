import GraphQL.CommandLine.Options
import GraphQL.Json.Writer

/-!
# Commands

The three commands of the program: `check` looks for errors in schemas and requests, `fmt` brings schemas into their
normal layout, and `exec` executes a request against data in a JSON file.
-/

namespace GraphQL.CommandLine

/-- What to execute. -/
structure Execution where
  schema : String
  data : Option String
  query : String
  operation : Option String
  /-- The variables as JSON text. -/
  variablesText : Option String
  relaxed : Bool
  layout : JsonLayout

/-- A command. -/
inductive Command where
  | check (files queries : List String) (strict : Bool)
  | format (files : List String) (checkOnly : Bool) (descriptions : Bool)
  | execute (execution : Execution)

/-- A command with what it shows. -/
structure Invocation where
  command : Command
  /-- Tell about every file. -/
  verbose : Bool
  /-- Do not tell that all is well. -/
  quiet : Bool

/-- The name of a command. -/
inductive CommandName where
  | check
  | format
  | execute
deriving DecidableEq, Repr

/-- The command of the given name. -/
def CommandName.ofText? : String → Option CommandName
  | "check" => some check
  | "fmt" => some format
  | "format" => some format
  | "exec" => some execute
  | _ => none

/-- What the program can tell about. -/
inductive Topic where
  | program
  | command (name : CommandName)
  /-- How to ask for help. -/
  | helpItself
deriving DecidableEq, Repr

/-- What is asked for: a command, or help. -/
inductive Request where
  | run (invocation : Invocation)
  | help (topic : Topic)
  | version
  /-- The arguments are wrong. -/
  | usage

/-- The options that may stand anywhere. -/
def commonOptions : List OptionSpec :=
  [{ long := "verbose", letter := some 'v', kind := .flag }, { long := "quiet", letter := some 'q', kind := .flag },
    { long := "help", letter := some 'h', kind := .help }]

/-- The options that may stand in front of the command. -/
def leadingOptions : List OptionSpec :=
  commonOptions ++ [{ long := "version", letter := some 'V', kind := .version }]

/-- The options of a command. -/
def CommandName.options : CommandName → List OptionSpec
  | check =>
    [{ long := "query", kind := .path, repeatable := true }, { long := "strict", kind := .flag }] ++ commonOptions
  | format => [{ long := "check", kind := .flag }, { long := "no-descriptions", kind := .flag }] ++ commonOptions
  | execute =>
    [{ long := "schema", letter := some 's', kind := .path }, { long := "data", letter := some 'd', kind := .path },
      { long := "query", letter := some 'Q', kind := .path }, { long := "op", kind := .text },
      { long := "vars", kind := .text }, { long := "sort", kind := .flag }, { long := "indent", kind := .number },
      { long := "relaxed", kind := .flag }] ++ commonOptions

/-- The command takes files. -/
def CommandName.takesFiles : CommandName → Bool
  | execute => false
  | _ => true

/-- The command that the arguments describe, if nothing needed is missing. -/
def Parsed.command? (parsed : Parsed) : CommandName → Option Command
  | .check =>
    if parsed.operands.isEmpty then none
    else some (.check parsed.operands (parsed.values "query") (parsed.has "strict"))
  | .format =>
    if parsed.operands.isEmpty then none
    else some (.format parsed.operands (parsed.has "check") (!parsed.has "no-descriptions"))
  | .execute => do
    let schema ← parsed.value? "schema"
    let query ← parsed.value? "query"
    return .execute {
      schema, query
      data := parsed.value? "data"
      operation := parsed.value? "op"
      variablesText := parsed.value? "vars"
      relaxed := parsed.has "relaxed"
      layout := { sortKeys := parsed.has "sort", indent := (parsed.value? "indent").bind number? } }

/-- What is asked for when reading stops. -/
def Request.ofStop (topic : Topic) : Stop → Request
  | .usage => usage
  | .help => help topic
  | .version => version

/-- Help on what the names say. -/
def Request.helpOn : List String → Request
  | [] => help .program
  | ["help"] => help .helpItself
  | [name] =>
    match CommandName.ofText? name with
    | some name => help (.command name)
    | none => usage
  | _ => usage

/-- What the arguments of the program ask for. -/
def Request.ofArguments (arguments : List String) : Request :=
  match readLeading leadingOptions {} arguments with
  | .error stop => ofStop .program stop
  | .ok (leading, name, rest) =>
    match CommandName.ofText? name with
    | none => if name = "help" then helpOn rest else usage
    | some command =>
      match readArguments command.options command.takesFiles none {} rest with
      | .error stop => ofStop (.command command) stop
      | .ok parsed =>
        match parsed.command? command with
        | none => usage
        | some selected =>
          run {
            command := selected
            verbose := leading.has "verbose" || parsed.has "verbose"
            quiet := leading.has "quiet" || parsed.has "quiet" }

end GraphQL.CommandLine
