import StaticGql.Analysis
import StaticGql.Analysis.Codec
import StaticGql.Analysis.OfEvents
import StaticGql.Artifact
import StaticGql.Artifact.Codec
import StaticGql.Assembly
import StaticGql.Blake3
import StaticGql.BuildError
import StaticGql.Builder.Classify
import StaticGql.Cache
import StaticGql.Cache.Codec
import StaticGql.CanonicalId
import StaticGql.Cli.Arguments
import StaticGql.Cli.Run
import StaticGql.Config
import StaticGql.Config.Check
import StaticGql.Config.Codec
import StaticGql.Declaration
import StaticGql.Dict
import StaticGql.Discovery
import StaticGql.Disk
import StaticGql.Effect
import StaticGql.Element.OfDeclaration
import StaticGql.Event
import StaticGql.Frontend
import StaticGql.Glob
import StaticGql.Graph
import StaticGql.Graph.Check
import StaticGql.Graph.Link
import StaticGql.Json.Basic
import StaticGql.Json.Printer
import StaticGql.Json.Reader
import StaticGql.Literal
import StaticGql.Main
import StaticGql.Marker
import StaticGql.ModuleRef
import StaticGql.Number.Binary64
import StaticGql.Number.Shortest
import StaticGql.Path
import StaticGql.Proofs.Analysis.Events
import StaticGql.Proofs.Analysis.Exact
import StaticGql.Proofs.Analysis.Reread
import StaticGql.Proofs.Analysis.Sites
import StaticGql.Proofs.Artifact.RoundTrip
import StaticGql.Proofs.Cache
import StaticGql.Proofs.CanonicalId
import StaticGql.Proofs.Cli.Spelling
import StaticGql.Proofs.Dict
import StaticGql.Proofs.Effect
import StaticGql.Proofs.Effect.Polling
import StaticGql.Proofs.Element.Alike
import StaticGql.Proofs.Element.Documents
import StaticGql.Proofs.Element.Selections
import StaticGql.Proofs.Element.Slices
import StaticGql.Proofs.Element.Variables
import StaticGql.Proofs.Except
import StaticGql.Proofs.Frontend
import StaticGql.Proofs.Graph.Blur
import StaticGql.Proofs.Graph.Check
import StaticGql.Proofs.Graph.Cycles
import StaticGql.Proofs.Graph.Declarations
import StaticGql.Proofs.Graph.Exact
import StaticGql.Proofs.Graph.Exports
import StaticGql.Proofs.Graph.Nodes
import StaticGql.Proofs.Graph.Rearranged
import StaticGql.Proofs.Graph.References
import StaticGql.Proofs.Graph.Reordered
import StaticGql.Proofs.Graph.SameFile
import StaticGql.Proofs.Json.Alike
import StaticGql.Proofs.Json.Depth
import StaticGql.Proofs.Json.Numbers
import StaticGql.Proofs.Json.Plain
import StaticGql.Proofs.Json.RoundTrip
import StaticGql.Proofs.Json.Unambiguous
import StaticGql.Proofs.Literal
import StaticGql.Proofs.Literal.Escapes
import StaticGql.Proofs.Path
import StaticGql.Proofs.Path.Components
import StaticGql.Proofs.Path.Drives
import StaticGql.Proofs.Path.Normal
import StaticGql.Proofs.Path.Relative
import StaticGql.Proofs.Plain.Agreement
import StaticGql.Proofs.Plain.Calls
import StaticGql.Proofs.Plain.Modules
import StaticGql.Proofs.Plain.Spelling
import StaticGql.Proofs.Plain.Walk
import StaticGql.Proofs.Registry.Asked
import StaticGql.Proofs.Registry.Calls
import StaticGql.Proofs.Registry.Circular
import StaticGql.Proofs.Registry.Coherence
import StaticGql.Proofs.Registry.Commands
import StaticGql.Proofs.Registry.Context
import StaticGql.Proofs.Registry.Declared
import StaticGql.Proofs.Registry.Elements
import StaticGql.Proofs.Registry.Evaluation
import StaticGql.Proofs.Registry.Incremental
import StaticGql.Proofs.Registry.Invalidated
import StaticGql.Proofs.Registry.Levels
import StaticGql.Proofs.Registry.Once
import StaticGql.Proofs.Registry.Origin
import StaticGql.Proofs.Registry.Project
import StaticGql.Proofs.Registry.Reachable
import StaticGql.Proofs.Registry.Registration
import StaticGql.Proofs.Registry.Resting
import StaticGql.Proofs.Registry.Retry
import StaticGql.Proofs.Registry.Schedule
import StaticGql.Proofs.Registry.Schedulers
import StaticGql.Proofs.Scan.Apart
import StaticGql.Proofs.Scan.Bounds
import StaticGql.Proofs.Scan.Brackets
import StaticGql.Proofs.Scan.Capture
import StaticGql.Proofs.Scan.Events
import StaticGql.Proofs.Scan.Indexed.Calls
import StaticGql.Proofs.Scan.Indexed.Clauses
import StaticGql.Proofs.Scan.Indexed.Constructs
import StaticGql.Proofs.Scan.Indexed.Cutting
import StaticGql.Proofs.Scan.Indexed.Expressions
import StaticGql.Proofs.Scan.Indexed.Levels
import StaticGql.Proofs.Scan.Indexed.Literals
import StaticGql.Proofs.Scan.Indexed.Loops
import StaticGql.Proofs.Scan.Indexed.Names
import StaticGql.Proofs.Scan.Indexed.Pairing
import StaticGql.Proofs.Scan.Indexed.Partners
import StaticGql.Proofs.Scan.Indexed.Statements
import StaticGql.Proofs.Scan.Indexed.Table
import StaticGql.Proofs.Scan.Indexed.Walk
import StaticGql.Proofs.Scan.Inert
import StaticGql.Proofs.Scan.Lexing
import StaticGql.Proofs.Scan.Munch
import StaticGql.Proofs.Scan.Order
import StaticGql.Proofs.Scan.Places
import StaticGql.Proofs.Scan.Reads
import StaticGql.Proofs.Scan.Seams
import StaticGql.Proofs.Scan.Shares
import StaticGql.Proofs.Scan.Skipped
import StaticGql.Proofs.Scan.Stretches
import StaticGql.Proofs.Script.Conformance
import StaticGql.Proofs.Session.Agreement
import StaticGql.Proofs.Session.Built
import StaticGql.Proofs.Session.Closure
import StaticGql.Proofs.Session.Collect
import StaticGql.Proofs.Session.Excluded
import StaticGql.Proofs.Session.Failing
import StaticGql.Proofs.Session.History
import StaticGql.Proofs.Session.Paths
import StaticGql.Proofs.Session.Rebuild
import StaticGql.Proofs.Session.Removing
import StaticGql.Proofs.Session.Scanning
import StaticGql.Proofs.Session.Visits
import StaticGql.Proofs.Text.Edits
import StaticGql.Proofs.Text.Lines
import StaticGql.Proofs.Tracker
import StaticGql.Proofs.Trail
import StaticGql.Proofs.Transform.Accounts
import StaticGql.Proofs.Transform.Again
import StaticGql.Proofs.Transform.Applied
import StaticGql.Proofs.Transform.Faithful
import StaticGql.Proofs.Transform.Paths
import StaticGql.Proofs.Transform.Plan
import StaticGql.Proofs.Transform.Positions
import StaticGql.Proofs.Transform.Rendered
import StaticGql.Proofs.Transform.Sewing
import StaticGql.Proofs.Transform.Spliced
import StaticGql.Proofs.Unfold
import StaticGql.Registry
import StaticGql.Registry.Declarations
import StaticGql.Registry.Modules
import StaticGql.Scan.Call
import StaticGql.Scan.Clause
import StaticGql.Scan.Forest
import StaticGql.Scan.Lexer
import StaticGql.Scan.Names
import StaticGql.Scan.Options
import StaticGql.Scan.Range
import StaticGql.Scan.Survey
import StaticGql.Scan.Walk
import StaticGql.Script.Call
import StaticGql.Script.Cursor
import StaticGql.Script.Grammar.Expressions
import StaticGql.Script.Grammar.Goal
import StaticGql.Script.Grammar.Modules
import StaticGql.Script.Grammar.Statements
import StaticGql.Script.Grammar.Types
import StaticGql.Script.Tree
import StaticGql.Script.Walk
import StaticGql.Session
import StaticGql.Session.Build
import StaticGql.Session.Collect
import StaticGql.Text.Edits
import StaticGql.Text.Split
import StaticGql.Toml
import StaticGql.Toml.Reader
import StaticGql.Toml.Scalar
import StaticGql.Tracker
import StaticGql.Trail
import StaticGql.Transform.File
import StaticGql.Transform.Plan
import StaticGql.Unfold
import StaticGql.Value
