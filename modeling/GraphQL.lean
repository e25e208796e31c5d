import GraphQL.CommandLine.Command
import GraphQL.CommandLine.Help
import GraphQL.CommandLine.Options
import GraphQL.CommandLine.Run
import GraphQL.Cycle
import GraphQL.Error.Basic
import GraphQL.Error.Coercion
import GraphQL.Error.Execution
import GraphQL.Error.Kind
import GraphQL.Error.Request
import GraphQL.Error.Schema
import GraphQL.Execution.Arguments
import GraphQL.Execution.Binding
import GraphQL.Execution.Completion
import GraphQL.Execution.Data
import GraphQL.Execution.Event
import GraphQL.Execution.Field
import GraphQL.Execution.Introspection
import GraphQL.Execution.Operation
import GraphQL.Execution.Plan
import GraphQL.Execution.Selection
import GraphQL.Execution.Service
import GraphQL.Execution.Untyped
import GraphQL.Json.Basic
import GraphQL.Json.Reader
import GraphQL.Json.Writer
import GraphQL.Keyed
import GraphQL.Main
import GraphQL.Number.Binary64
import GraphQL.Number.Literal
import GraphQL.Number.Shortest
import GraphQL.Proofs.CommandLine.Formatting
import GraphQL.Proofs.Cycle
import GraphQL.Proofs.Execution.Arguments
import GraphQL.Proofs.Execution.Beside
import GraphQL.Proofs.Execution.Calls
import GraphQL.Proofs.Execution.Channels
import GraphQL.Proofs.Execution.Collected
import GraphQL.Proofs.Execution.Copies
import GraphQL.Proofs.Execution.Cycles
import GraphQL.Proofs.Execution.Described
import GraphQL.Proofs.Execution.Ensures
import GraphQL.Proofs.Execution.Follows
import GraphQL.Proofs.Execution.Inlined
import GraphQL.Proofs.Execution.Introspection
import GraphQL.Proofs.Execution.Isolated
import GraphQL.Proofs.Execution.Kept
import GraphQL.Proofs.Execution.Keyed
import GraphQL.Proofs.Execution.Levels
import GraphQL.Proofs.Execution.Listed
import GraphQL.Proofs.Execution.Nesting
import GraphQL.Proofs.Execution.Nodes
import GraphQL.Proofs.Execution.Outline
import GraphQL.Proofs.Execution.Pruned
import GraphQL.Proofs.Execution.Reentry
import GraphQL.Proofs.Execution.Selected
import GraphQL.Proofs.Execution.Subscriptions
import GraphQL.Proofs.Execution.Supplied
import GraphQL.Proofs.Execution.Together
import GraphQL.Proofs.Execution.Variables
import GraphQL.Proofs.Json.Keys
import GraphQL.Proofs.Keyed
import GraphQL.Proofs.Number.Display
import GraphQL.Proofs.Number.Literal
import GraphQL.Proofs.Number.Rounding
import GraphQL.Proofs.Number.Shortest
import GraphQL.Proofs.Request.Cycles
import GraphQL.Proofs.Request.Fragments
import GraphQL.Proofs.Request.Inlined
import GraphQL.Proofs.Request.Located
import GraphQL.Proofs.Request.Places
import GraphQL.Proofs.Request.Pruned
import GraphQL.Proofs.Request.Respaced
import GraphQL.Proofs.Request.Slots
import GraphQL.Proofs.Request.Sources
import GraphQL.Proofs.Response.Completion
import GraphQL.Proofs.Response.Conformance
import GraphQL.Proofs.Response.Hidden
import GraphQL.Proofs.Response.Joining
import GraphQL.Proofs.Response.Merging
import GraphQL.Proofs.Response.Soundness
import GraphQL.Proofs.Schema.Alike
import GraphQL.Proofs.Schema.Checks
import GraphQL.Proofs.Schema.Coercion
import GraphQL.Proofs.Schema.Cycles
import GraphQL.Proofs.Schema.Declarations
import GraphQL.Proofs.Schema.Declared
import GraphQL.Proofs.Schema.Declaring
import GraphQL.Proofs.Schema.Details
import GraphQL.Proofs.Schema.Directives
import GraphQL.Proofs.Schema.Evolution
import GraphQL.Proofs.Schema.Filled
import GraphQL.Proofs.Schema.Inheritance
import GraphQL.Proofs.Schema.Inserted
import GraphQL.Proofs.Schema.Interfaces
import GraphQL.Proofs.Schema.Internal
import GraphQL.Proofs.Schema.Introspection
import GraphQL.Proofs.Schema.Kept
import GraphQL.Proofs.Schema.Legible
import GraphQL.Proofs.Schema.Literals
import GraphQL.Proofs.Schema.Located
import GraphQL.Proofs.Schema.Members
import GraphQL.Proofs.Schema.Normal
import GraphQL.Proofs.Schema.Order
import GraphQL.Proofs.Schema.Outputs
import GraphQL.Proofs.Schema.Placeholders
import GraphQL.Proofs.Schema.Reachable
import GraphQL.Proofs.Schema.Reader
import GraphQL.Proofs.Schema.References
import GraphQL.Proofs.Schema.Reloaded
import GraphQL.Proofs.Schema.Repeats
import GraphQL.Proofs.Schema.Reread
import GraphQL.Proofs.Schema.Respaced
import GraphQL.Proofs.Schema.Rewriting
import GraphQL.Proofs.Schema.Rewritten
import GraphQL.Proofs.Schema.Roots
import GraphQL.Proofs.Schema.Roundtrip
import GraphQL.Proofs.Schema.Scalar
import GraphQL.Proofs.Schema.Search
import GraphQL.Proofs.Schema.Shown
import GraphQL.Proofs.Schema.Sites
import GraphQL.Proofs.Schema.Spelled
import GraphQL.Proofs.Schema.Split
import GraphQL.Proofs.Schema.Subtypes
import GraphQL.Proofs.Schema.Trimmed
import GraphQL.Proofs.Schema.Undefined
import GraphQL.Proofs.Schema.Undescribed
import GraphQL.Proofs.Schema.Unplaced
import GraphQL.Proofs.Schema.Validity
import GraphQL.Proofs.Schema.Verbatim
import GraphQL.Proofs.Schema.Writable
import GraphQL.Proofs.Schema.Written
import GraphQL.Proofs.Text.Actions
import GraphQL.Proofs.Text.Block
import GraphQL.Proofs.Text.Bytes
import GraphQL.Proofs.Text.Condensed
import GraphQL.Proofs.Text.Description
import GraphQL.Proofs.Text.InStep
import GraphQL.Proofs.Text.Located
import GraphQL.Proofs.Text.Order
import GraphQL.Proofs.Text.Parser
import GraphQL.Proofs.Text.Place
import GraphQL.Proofs.Text.Quoted
import GraphQL.Proofs.Text.Reads
import GraphQL.Proofs.Text.Tokens
import GraphQL.Proofs.Text.Travels
import GraphQL.Proofs.Time.Calendar
import GraphQL.Proofs.Time.Timestamp
import GraphQL.Proofs.Value.Literal
import GraphQL.Proofs.Value.Number
import GraphQL.Proofs.Value.Reader
import GraphQL.Proofs.Value.Sorted
import GraphQL.Request.Document
import GraphQL.Request.Reader
import GraphQL.Request.Validation
import GraphQL.Schema.Assembly
import GraphQL.Schema.Builtin
import GraphQL.Schema.Catalog
import GraphQL.Schema.Coercion
import GraphQL.Schema.Declaration
import GraphQL.Schema.Location
import GraphQL.Schema.Name
import GraphQL.Schema.Normal
import GraphQL.Schema.Operation
import GraphQL.Schema.Reader
import GraphQL.Schema.Reference
import GraphQL.Schema.Scalar
import GraphQL.Schema.TypeRef
import GraphQL.Schema.Validation
import GraphQL.Schema.Writer
import GraphQL.Script.Host
import GraphQL.Script.Object
import GraphQL.Script.Session
import GraphQL.Script.State
import GraphQL.Text.BlockString
import GraphQL.Text.Bytes
import GraphQL.Text.Parser
import GraphQL.Text.Position
import GraphQL.Text.Quoted
import GraphQL.Text.Scanner
import GraphQL.Text.SyntaxError
import GraphQL.Time.Calendar
import GraphQL.Time.Timestamp
import GraphQL.Value.Basic
import GraphQL.Value.Json
import GraphQL.Value.Literal
import GraphQL.Value.Reader
