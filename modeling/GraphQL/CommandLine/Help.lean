import GraphQL.CommandLine.Command

/-!
# Help texts

What the program tells about itself and its commands.
-/

namespace GraphQL.CommandLine

/-- The name of the program with its version. -/
def versionText : String := "graft 0.1.0\n"

/-- The help on the program. -/
def programHelp : String := "Command-line interface for graft

Usage: graft [OPTIONS] <COMMAND>

Commands:
  check  Check schema files and request documents for errors
  fmt    Rewrite schema files as canonical SDL
  exec   Resolve a request against JSON data
  help   Print this message or the help of the given subcommand(s)

Options:
  -v, --verbose \x20
  -q, --quiet   \x20
  -h, --help     Print help
  -V, --version  Print version
"

/-- The help on a command. -/
def CommandName.help : CommandName → String
  | check => "Check schema files and request documents for errors

Usage: graft check [OPTIONS] <FILES>...

Arguments:
  <FILES>...  Schema files, loaded in order into one schema

Options:
      --query <QUERIES>  Request documents to validate against the schema
  -v, --verbose         \x20
  -q, --quiet           \x20
      --strict           Treat warnings as errors
  -h, --help             Print help
"
  | format => "Rewrite schema files as canonical SDL

Usage: graft fmt [OPTIONS] <FILES>...

Arguments:
  <FILES>... \x20

Options:
      --check            Check if files are formatted (don't modify)
  -v, --verbose         \x20
      --no-descriptions  Drop description strings
  -q, --quiet           \x20
  -h, --help             Print help
"
  | execute => "Resolve a request against JSON data

Usage: graft exec [OPTIONS] --schema <SCHEMA> --query <QUERY>

Options:
  -s, --schema <SCHEMA>  Schema file path
  -v, --verbose         \x20
  -d, --data <DATA>      JSON file holding the query root data
  -q, --quiet           \x20
  -Q, --query <QUERY>    Request document path
      --op <OP>          Operation to run when the document holds several
      --vars <VARS>      Variables as a JSON object
      --sort             Sort object keys in the output
      --indent <INDENT>  Indent the output by this many spaces
      --relaxed          Accept strings where enum values are expected
  -h, --help             Print help
"

/-- The help on asking for help. -/
def helpHelp : String := "Print this message or the help of the given subcommand(s)

Usage: graft help [COMMAND]...

Arguments:
  [COMMAND]...  Print help for the subcommand(s)
"

/-- The help on a topic. -/
def Topic.help : Topic → String
  | program => programHelp
  | command name => name.help
  | helpItself => helpHelp

end GraphQL.CommandLine
