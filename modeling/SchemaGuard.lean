import SchemaGuard.Main
import SchemaGuard.Schema.JsonForm.Encode
import SchemaGuard.Proofs.Resolution.Occurrences
import SchemaGuard.Proofs.Resolution.WellFormed
import SchemaGuard.Proofs.Guard.Induction
import SchemaGuard.Proofs.Guard.Unfolding
import SchemaGuard.Proofs.Number.Byte
import SchemaGuard.Proofs.Schema.Conformance
import SchemaGuard.Proofs.Guard.Conformance
import SchemaGuard.Proofs.Guard.Calls
import SchemaGuard.Proofs.Guard.Totality
import SchemaGuard.Proofs.Script.Semantics
import SchemaGuard.Proofs.Script.Module
import SchemaGuard.Proofs.Script.Shape
import SchemaGuard.Proofs.Script.Spelling
import SchemaGuard.Proofs.Script.Emission
import SchemaGuard.Proofs.Script.Emitted
import SchemaGuard.Proofs.Script.Names
import SchemaGuard.Proofs.Script.Capture
import SchemaGuard.Proofs.Text.Literal
import SchemaGuard.Proofs.Text.Carried
import SchemaGuard.Proofs.Script.Literals
import SchemaGuard.Proofs.Script.Words
import SchemaGuard.Proofs.Script.Labels
import SchemaGuard.Proofs.Script.Lines
import SchemaGuard.Proofs.Script.Hoisting
import SchemaGuard.Proofs.Script.Program
import SchemaGuard.Proofs.Script.Checkers
import SchemaGuard.Proofs.Script.Answers
import SchemaGuard.Proofs.Script.Conditions
import SchemaGuard.Proofs.Script.Bodies
import SchemaGuard.Proofs.Script.Agreement
import SchemaGuard.Proofs.Script.Sessions
import SchemaGuard.Proofs.Guard.Parametricity
import SchemaGuard.Proofs.Guard.Extension
import SchemaGuard.Proofs.Json.Keys
import SchemaGuard.Proofs.Schema.Pruning
import SchemaGuard.Proofs.Guard.Policies
import SchemaGuard.Proofs.Json.Layout
import SchemaGuard.Proofs.Json.Tree
import SchemaGuard.Proofs.Schema.JsonForm
import SchemaGuard.Proofs.Document.RoundTrip
import SchemaGuard.Proofs.Resolution.Resolved
import SchemaGuard.Proofs.Guard.Widening
import SchemaGuard.Proofs.Text.Told
import SchemaGuard.Proofs.Script.Written
import SchemaGuard.Proofs.Script.Declared
import SchemaGuard.Proofs.Script.TypeNames
import SchemaGuard.Proofs.Guard.Substitution
import SchemaGuard.Proofs.Resolution.Cycles
import SchemaGuard.Proofs.Guard.Requests
import SchemaGuard.Proofs.Script.Repeats
import SchemaGuard.Proofs.Script.Renaming
import SchemaGuard.Proofs.Script.Visits
import SchemaGuard.Proofs.Script.Reuse
import SchemaGuard.Proofs.Guard.KeyOrder
import SchemaGuard.Proofs.Guard.Entries
import SchemaGuard.Proofs.Resolution.Uses
import SchemaGuard.Proofs.Script.Prefixes
import SchemaGuard.Proofs.Attempt
import SchemaGuard.Proofs.CommandLine.Inputs
import SchemaGuard.Proofs.CommandLine.Checking
import SchemaGuard.Proofs.FileSystem.Writing
import SchemaGuard.Proofs.FileSystem.Order
import SchemaGuard.Proofs.CommandLine.Emitting
import SchemaGuard.Proofs.Json.Spelled
import SchemaGuard.Proofs.Document.Definitions
import SchemaGuard.Proofs.Document.FirstFault
import SchemaGuard.Proofs.Schema.Presentation
import SchemaGuard.Proofs.Document.Presentation
import SchemaGuard.Proofs.Schema.Substitution
import SchemaGuard.Proofs.Script.Steps
import SchemaGuard.Proofs.Script.Freshness
import SchemaGuard.Proofs.Script.Mentions
import SchemaGuard.Proofs.Script.Variables
import SchemaGuard.Proofs.Guard.Direct
