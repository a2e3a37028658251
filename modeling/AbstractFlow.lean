import AbstractFlow.Analysis.Access
import AbstractFlow.Analysis.Analyzer
import AbstractFlow.Analysis.Body
import AbstractFlow.Analysis.Branch
import AbstractFlow.Analysis.Builtin
import AbstractFlow.Analysis.Call
import AbstractFlow.Analysis.Run
import AbstractFlow.Analysis.Solver
import AbstractFlow.CallGraph
import AbstractFlow.Collection.Dict
import AbstractFlow.Collection.OrderedMap
import AbstractFlow.Collection.Sorted
import AbstractFlow.Collection.Table
import AbstractFlow.Command.Files
import AbstractFlow.Command.Outcome
import AbstractFlow.Command.Report
import AbstractFlow.Command.Settings
import AbstractFlow.Command.Usage
import AbstractFlow.Context
import AbstractFlow.Describe.Basic
import AbstractFlow.Describe.Program
import AbstractFlow.Describe.Result
import AbstractFlow.Describe.Value
import AbstractFlow.Digest.Hasher
import AbstractFlow.Digest.Spooky
import AbstractFlow.Duration
import AbstractFlow.Fault
import AbstractFlow.Flow.Graph
import AbstractFlow.Flow.Snapshot
import AbstractFlow.Flow.Tracker
import AbstractFlow.Flow.Walk
import AbstractFlow.Hierarchy
import AbstractFlow.Interruption
import AbstractFlow.Log
import AbstractFlow.Main
import AbstractFlow.Number.Basic
import AbstractFlow.Number.Decimal
import AbstractFlow.Number.Numeral
import AbstractFlow.Number.Word
import AbstractFlow.Options
import AbstractFlow.Oracle.Basic
import AbstractFlow.Oracle.Cache
import AbstractFlow.Oracle.Query
import AbstractFlow.Oracle.Recorded
import AbstractFlow.Program.Decode
import AbstractFlow.Program.Scope
import AbstractFlow.Program.Statement
import AbstractFlow.State.Basic
import AbstractFlow.State.Calls
import AbstractFlow.State.Objects
import AbstractFlow.State.Variables
import AbstractFlow.Text.Argument
import AbstractFlow.Text.Blank
import AbstractFlow.Text.ByteString
import AbstractFlow.Text.Columns
import AbstractFlow.Text.Printable
import AbstractFlow.Text.Quoted
import AbstractFlow.Text.Template
import AbstractFlow.Value.Attribute
import AbstractFlow.Value.Build
import AbstractFlow.Value.Compare
import AbstractFlow.Value.Convert
import AbstractFlow.Value.Digest
import AbstractFlow.Value.Merge
import AbstractFlow.Value.NumberSet
import AbstractFlow.Value.Object
import AbstractFlow.Value.StringSet
import AbstractFlow.Value.Text
import AbstractFlow.Yaml.Datum
import AbstractFlow.Yaml.Decode
import AbstractFlow.Yaml.Lexeme
import AbstractFlow.Yaml.Node
import AbstractFlow.Yaml.Readable
import AbstractFlow.Yaml.Scalar
import AbstractFlow.Yaml.Scan
import AbstractFlow.Yaml.Token
import AbstractFlow.Proofs.Collection.Dict
import AbstractFlow.Proofs.Flow.Graph
import AbstractFlow.Proofs.Scalar.Sweep
import AbstractFlow.Proofs.Scalar.Simulation
import AbstractFlow.Proofs.Collection.Sorted
import AbstractFlow.Proofs.Number.Order
import AbstractFlow.Proofs.Value.NumberSet
import AbstractFlow.Proofs.Value.StringSet
import AbstractFlow.Proofs.Collection.Weight
import AbstractFlow.Proofs.Value.Keys
import AbstractFlow.Proofs.Value.Plain
import AbstractFlow.Proofs.Scalar.Rank
import AbstractFlow.Proofs.Scalar.Convergence
import AbstractFlow.Proofs.Number.Exact
import AbstractFlow.Proofs.Value.Concrete
import AbstractFlow.Proofs.Value.Verdict
import AbstractFlow.Proofs.Scalar.Execution
import AbstractFlow.Proofs.Scalar.Soundness
import AbstractFlow.Proofs.Analysis.Outline
import AbstractFlow.Proofs.Analysis.Effect
import AbstractFlow.Proofs.Analysis.Rules
import AbstractFlow.Proofs.Analysis.CallStack
import AbstractFlow.Proofs.Analysis.Returns
import AbstractFlow.Proofs.Analysis.Ledger
import AbstractFlow.Proofs.Analysis.Beginning
import AbstractFlow.Proofs.Analysis.Propagation
import AbstractFlow.Proofs.Analysis.Delivery
import AbstractFlow.Proofs.Analysis.Asking
import AbstractFlow.Proofs.Analysis.Accounting
import AbstractFlow.Proofs.Value.Nesting
import AbstractFlow.Proofs.Value.Canonical
import AbstractFlow.Proofs.Value.Admission
import AbstractFlow.Proofs.Collection.Semilattice
import AbstractFlow.Proofs.Value.Joins
import AbstractFlow.Proofs.Value.Semilattice
import AbstractFlow.Proofs.Collection.Ascent
import AbstractFlow.Proofs.Value.Ascent
import AbstractFlow.Proofs.State.Single
import AbstractFlow.Proofs.Analysis.Alone
import AbstractFlow.Proofs.Insensitive.Passes
import AbstractFlow.Proofs.Insensitive.PostFixpoint
import AbstractFlow.Proofs.Value.Flat
import AbstractFlow.Proofs.Value.Reach
import AbstractFlow.Proofs.Insensitive.FlatFrames
import AbstractFlow.Proofs.Insensitive.Convergence
import AbstractFlow.Proofs.Value.Closed
import AbstractFlow.Proofs.State.Contents
import AbstractFlow.Proofs.Analysis.Places
import AbstractFlow.Proofs.Analysis.Upkeep
import AbstractFlow.Proofs.Analysis.Moments
import AbstractFlow.Proofs.Analysis.Guide
import AbstractFlow.Proofs.Analysis.Outset
import AbstractFlow.Proofs.Analysis.Course
import AbstractFlow.Proofs.Analysis.StackBound
import AbstractFlow.Proofs.Analysis.WeakUpdates
import AbstractFlow.Proofs.Analysis.ClassChains
import AbstractFlow.Proofs.Analysis.Rounds
import AbstractFlow.Proofs.Analysis.Universe
import AbstractFlow.Proofs.Analysis.Safety
import AbstractFlow.Proofs.Analysis.Summaries
import AbstractFlow.Proofs.Collection.Table
import AbstractFlow.Proofs.Value.WellFormed
import AbstractFlow.Proofs.Value.Composition
import AbstractFlow.Proofs.Value.Narrowing
import AbstractFlow.Proofs.Value.Precision
import AbstractFlow.Proofs.Digest.Ideal
import AbstractFlow.Proofs.Value.Imprint
import AbstractFlow.Proofs.Value.Distinction
import AbstractFlow.Proofs.Oracle.Keys
import AbstractFlow.Proofs.Oracle.Transparency
import AbstractFlow.Proofs.Value.Cover
import AbstractFlow.Proofs.Value.Growth
import AbstractFlow.Proofs.State.Outline
import AbstractFlow.Proofs.State.Scopes
import AbstractFlow.Proofs.State.Frames
import AbstractFlow.Proofs.State.Resolution
import AbstractFlow.Proofs.State.Isolation
import AbstractFlow.Proofs.Scalar.Step
import AbstractFlow.Proofs.Analysis.Silence
import AbstractFlow.Proofs.Analysis.Contexts
import AbstractFlow.Proofs.Analysis.Window
import AbstractFlow.Proofs.Analysis.Listing
import AbstractFlow.Proofs.Analysis.SharedFrame
import AbstractFlow.Proofs.Hierarchy.Walk
import AbstractFlow.Proofs.Hierarchy.Instances
import AbstractFlow.Proofs.Hierarchy.Relations
import AbstractFlow.Proofs.State.ClassAttributes
import AbstractFlow.Proofs.Analysis.Arguments
import AbstractFlow.Proofs.Analysis.AttributeLoads
import AbstractFlow.Proofs.Value.Answers
import AbstractFlow.Proofs.Value.Consistency
import AbstractFlow.Proofs.Number.Rounding
import AbstractFlow.Proofs.Program.IntegerLiterals
import AbstractFlow.Proofs.Number.Whole
import AbstractFlow.Proofs.Number.WholeText
import AbstractFlow.Proofs.Value.Listed
import AbstractFlow.Proofs.Value.RoundTrip
import AbstractFlow.Proofs.Analysis.Invocations
import AbstractFlow.Proofs.Value.Lengths
import AbstractFlow.Proofs.Value.Sums
import AbstractFlow.Proofs.Analysis.Stores
import AbstractFlow.Proofs.Collection.OrderedMap
import AbstractFlow.Proofs.Flow.Queues
import AbstractFlow.Proofs.CallGraph
import AbstractFlow.Proofs.Context
import AbstractFlow.Proofs.Flow.Walk
import AbstractFlow.Proofs.Flow.Agenda
import AbstractFlow.Proofs.Collection.Search
import AbstractFlow.Proofs.Value.Constructors
import AbstractFlow.Proofs.State.Parents
import AbstractFlow.Proofs.Hierarchy.Redefinition
import AbstractFlow.Proofs.Value.EqualNumbers
