import GraphQL.CommandLine.Help
import GraphQL.Execution.Operation
import GraphQL.Json.Reader
import GraphQL.Schema.Builtin
import GraphQL.Schema.Writer

/-!
# Running commands

A command runs on the files that it names: it reads and changes them, writes output and diagnostics, and ends with an
exit code. A file that can not be read ends it at once.
-/

namespace GraphQL.CommandLine

/-- The files by their names, each with its content or the reason why it can not be read. -/
abbrev Files := List (String × Except String String)

/-- What a command has done so far. -/
structure Effects where
  files : Files
  /-- What is written to the standard output. -/
  output : String := ""
  /-- What is told about errors. -/
  diagnostics : String := ""

/-- A command at work: it gives a result, or fails with a message. -/
abbrev Job := ExceptT String (StateM Effects)

/-- How a command ended. -/
structure Outcome where
  exit : Nat
  effects : Effects
  /-- Why the command itself failed. -/
  failure : Option String := none

namespace Job

/-- Writes a line. -/
def say (line : String) : Job Unit := modify fun effects => { effects with output := effects.output ++ line ++ "\n" }

/-- Writes a line under a condition. -/
def sayIf (condition : Bool) (line : String) : Job Unit := if condition then say line else pure ()

/-- The content of a file. -/
def read (path : String) : Job String := do
  match Entries.get? path (← get).files with
  | some (.ok text) => return text
  | some (.error reason) => throw reason
  | none => throw "No such file or directory (os error 2)"

/-- Puts a text into a file. -/
def write (path text : String) : Job Unit :=
  modify fun effects => { effects with files := Entries.put path (.ok text) effects.files }

/-- Tells about the errors of a file. The result tells whether the command fails because of them, as it does for mere
warnings only if it is strict. -/
def report (path : String) (strict : Bool) (errors : List Error) : Job Bool := do
  let fails := if strict then !errors.isEmpty else Errors.anyFailure errors
  let heading := if fails then "Error" else "Warning"
  modify fun effects =>
    { effects with diagnostics := effects.diagnostics ++ s!"{heading} {path}\n" ++ Errors.text errors ++ "\n" }
  return fails

end Job

/-! ### Schemas -/

/-- Adds the declarations of a text to a schema. -/
def load (schema : Schema) (text : String) : Except (List Error) Schema :=
  match schema.read? text.toUTF8.toList with
  | .error e => .error [.ofSyntax e]
  | .ok declarations => (schema.declare? declarations).mapError (·.map .ofSchema)

/-- The schema that files are loaded into. -/
def emptySchema : Schema := Schema.initial {}

/-- The normal layout of a schema text. -/
def formatted (descriptions : Bool) (text : String) : Except (List Error) String :=
  (load emptySchema text).map (Schema.text { descriptions })

/-! ### Checking -/

/-- Loads files into a schema one after the other. The result tells whether there were errors. -/
def checkSchemas (strict verbose : Bool) : Schema → List String → Job (Schema × Bool)
  | schema, [] => return (schema, false)
  | schema, path :: rest => do
    Job.sayIf verbose s!"Checking {path}"
    let (schema, failed) ←
      match load schema (← Job.read path) with
      | .ok schema =>
        Job.sayIf verbose s!"OK {path}"
        pure (schema, false)
      | .error errors => pure (schema, ← Job.report path strict errors)
    let (schema, more) ← checkSchemas strict verbose schema rest
    return (schema, failed || more)

/-- Checks requests against a schema. The result tells whether there were errors. -/
def checkRequests (strict verbose : Bool) (schema : Schema) : List String → Job Bool
  | [] => return false
  | path :: rest => do
    Job.sayIf verbose s!"Checking {path}"
    let failed ←
      match schema.request? (← Job.read path).toUTF8.toList with
      | .ok _ =>
        Job.sayIf verbose s!"OK {path}"
        pure false
      | .error errors => Job.report path strict errors
    let more ← checkRequests strict verbose schema rest
    return failed || more

/-- Checks schemas and requests. -/
def check (files queries : List String) (strict verbose quiet : Bool) : Job Nat := do
  let (schema, failed) ← checkSchemas strict verbose emptySchema files
  let more ← checkRequests strict verbose schema queries
  if failed || more then return 1
  Job.sayIf (!quiet) ("Success: " ++ toString (files.length + queries.length) ++ " file(s) checked")
  return 0

/-! ### Formatting -/

/-- Formats a file, or checks whether it is formatted. The result tells whether the command fails because of it. -/
def formatFile (checkOnly descriptions verbose : Bool) (path : String) : Job Bool := do
  let source ← Job.read path
  match formatted descriptions source with
  | .error errors => Job.report path false errors
  | .ok text =>
    if source = text then
      Job.sayIf verbose ((if checkOnly then "OK " else "Unchanged ") ++ path)
      return false
    else if checkOnly then
      Job.say s!"Would format {path}"
      return true
    else
      Job.write path text
      Job.say s!"Formatted {path}"
      return false

/-- Formats files one after the other. -/
def format (checkOnly descriptions verbose : Bool) : List String → Job Nat
  | [] => return 0
  | path :: rest => do
    let failed ← formatFile checkOnly descriptions verbose path
    let code ← format checkOnly descriptions verbose rest
    return if failed then 1 else code

/-! ### Executing -/

/-- Reads JSON that is named for messages. -/
def readJson (what text : String) : Job Json :=
  match Json.parse text with
  | .ok json => return json
  | .error e => throw s!"invalid JSON in {what}: {e.message}"

/-- The variables of a JSON text. -/
def readVariables : Option String → Job (List (String × Value))
  | none => return []
  | some text => do
    match Value.ofJson (← readJson "--vars" text) with
    | .object entries => return entries
    | v => throw s!"--vars must be an object, got {v.kind}"

/-- An application without objects and endpoints of its own. -/
def untypedHost : Host Empty Empty Unit where
  typeName o := nomatch o
  implementation? o := nomatch o
  resolve o := nomatch o
  items? o := nomatch o
  untyped := .plain
  accepts e := nomatch e
  send e := nomatch e
  dismiss e := nomatch e

/-- Executes a request. -/
def execute (execution : Execution) : Job Nat := do
  match load emptySchema (← Job.read execution.schema) with
  | .error errors =>
    discard (Job.report execution.schema false errors)
    return 1
  | .ok schema =>
    let data : Data Empty Empty ←
      match execution.data with
      | none => pure .null
      | some path => do
        let json ← readJson path (← Job.read path)
        pure (.value (Value.ofJson json))
    let variableValues ← readVariables execution.variablesText
    let source ← Job.read execution.query
    let service : Service Empty Empty Unit :=
      { schema, relaxed := execution.relaxed, root := fun _ => data, host := untypedHost }
    let (response, _) := service.resolve source.toUTF8.toList execution.operation variableValues { app := () }
    Job.say (response.jsonText execution.layout)
    return if response.isOk then 0 else 1

/-! ### The program -/

/-- The work of a command. -/
def Invocation.job (invocation : Invocation) : Job Nat :=
  match invocation.command with
  | .check files queries strict => check files queries strict invocation.verbose invocation.quiet
  | .format files checkOnly descriptions => format checkOnly descriptions invocation.verbose files
  | .execute execution => CommandLine.execute execution

/-- Does what is asked for. -/
def Request.outcome (files : Files) : Request → Outcome
  | run invocation =>
    match invocation.job.run.run { files } with
    | (.ok exit, effects) => { exit, effects }
    | (.error reason, effects) => { exit := 1, effects, failure := some reason }
  | help topic => { exit := 0, effects := { files, output := topic.help } }
  | version => { exit := 0, effects := { files, output := versionText } }
  | usage => { exit := 2, effects := { files, diagnostics := programHelp } }

/-- The files that a command reads. -/
def Request.paths : Request → List String
  | run invocation =>
    match invocation.command with
    | .check files queries _ => files ++ queries
    | .format files _ _ => files
    | .execute execution => [execution.schema] ++ execution.data.toList ++ [execution.query]
  | _ => []

end GraphQL.CommandLine
