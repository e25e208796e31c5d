import GraphQL.CommandLine.Run

/-!
# The program

Reads the files that the arguments name, runs the command on them, and writes what it has to say and what it changed.
-/

namespace GraphQL.CommandLine

/-- The content of a file, or the reason why it can not be read. -/
def readFile (path : String) : IO (Except String String) := do
  try
    match String.fromUTF8? (← IO.FS.readBinFile path) with
    | some text => return .ok text
    | none => return .error "stream did not contain valid UTF-8"
  catch e =>
    match e with
    | .noFileOrDirectory .. => return .error "No such file or directory (os error 2)"
    | e => return .error (toString e)

/-- Writes the files that a command changed. -/
def writeChanges (before after : Files) : IO Unit := do
  for (path, content) in after do
    match Entries.get? path before, content with
    | some (.ok old), .ok new => if old ≠ new then IO.FS.writeFile path new
    | _, _ => pure ()

end GraphQL.CommandLine

open GraphQL.CommandLine in
/-- Runs the command that the arguments describe. -/
def main (arguments : List String) : IO UInt32 := do
  let request := Request.ofArguments arguments
  let files ← request.paths.mapM fun path => do return (path, ← readFile path)
  let outcome := request.outcome files
  writeChanges files outcome.effects.files
  (← IO.getStdout).putStr outcome.effects.output
  (← IO.getStderr).putStr outcome.effects.diagnostics
  match outcome.failure with
  | some reason => (← IO.getStderr).putStrLn s!"Error: {reason}"
  | none => pure ()
  return UInt32.ofNat outcome.exit
