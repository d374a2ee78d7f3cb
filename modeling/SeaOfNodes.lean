import SeaOfNodes.Cbor.Item
import SeaOfNodes.Cbor.Reader
import SeaOfNodes.CommandLine.Flag
import SeaOfNodes.CommandLine.Parse
import SeaOfNodes.Compile
import SeaOfNodes.Description.Basic
import SeaOfNodes.Description.Build
import SeaOfNodes.Description.Coerce
import SeaOfNodes.Description.Convert
import SeaOfNodes.Description.Equal
import SeaOfNodes.Description.Load
import SeaOfNodes.Description.Unify
import SeaOfNodes.Description.Value
import SeaOfNodes.Document.Draft
import SeaOfNodes.Document.Evaluate
import SeaOfNodes.Document.Lexer
import SeaOfNodes.Document.Operation
import SeaOfNodes.Document.Parser
import SeaOfNodes.Document.Step
import SeaOfNodes.Document.Syntax
import SeaOfNodes.Document.Template
import SeaOfNodes.Document.Token
import SeaOfNodes.Files.Collect
import SeaOfNodes.Files.Disk
import SeaOfNodes.Files.Path
import SeaOfNodes.Files.Tree
import SeaOfNodes.Graph.Basic
import SeaOfNodes.Graph.Query
import SeaOfNodes.Graph.Surgery
import SeaOfNodes.Listing.Chain
import SeaOfNodes.Listing.Emit
import SeaOfNodes.Listing.Error
import SeaOfNodes.Listing.Exchange
import SeaOfNodes.Listing.Instruction
import SeaOfNodes.Listing.Linearize
import SeaOfNodes.Listing.Output
import SeaOfNodes.Listing.Registers
import SeaOfNodes.Listing.Simplify
import SeaOfNodes.Listing.StableSort
import SeaOfNodes.Listing.Text
import SeaOfNodes.Listing.Wire
import SeaOfNodes.Literal
import SeaOfNodes.Log.Event
import SeaOfNodes.Log.Render
import SeaOfNodes.Main
import SeaOfNodes.Number.BigFloat
import SeaOfNodes.Number.Binary
import SeaOfNodes.Number.Decimal
import SeaOfNodes.Number.Integer
import SeaOfNodes.Number.Shortest
import SeaOfNodes.Op
import SeaOfNodes.Outcome
import SeaOfNodes.Pass.Change
import SeaOfNodes.Pass.DeadCode
import SeaOfNodes.Pass.NoChoice
import SeaOfNodes.Pass.Registry
import SeaOfNodes.Pass.Runner
import SeaOfNodes.Pass.Tagging
import SeaOfNodes.Program.Config
import SeaOfNodes.Program.Journal
import SeaOfNodes.Program.Run
import SeaOfNodes.Program.Session
import SeaOfNodes.Proofs.Cbor.RoundTrip
import SeaOfNodes.Proofs.Compile.Annotation
import SeaOfNodes.Proofs.Compile.Causes
import SeaOfNodes.Proofs.Compile.DefaultPasses
import SeaOfNodes.Proofs.Compile.DefinedBeforeUse
import SeaOfNodes.Proofs.Compile.EntryBlock
import SeaOfNodes.Proofs.Compile.Guarantees
import SeaOfNodes.Proofs.Compile.KeptOperands
import SeaOfNodes.Proofs.Compile.LoweredListing
import SeaOfNodes.Proofs.Compile.LoweredPlaces
import SeaOfNodes.Proofs.Compile.LoweredSchedule
import SeaOfNodes.Proofs.Description.Acceptance
import SeaOfNodes.Proofs.Description.Build
import SeaOfNodes.Proofs.Description.Creation
import SeaOfNodes.Proofs.Description.Linking
import SeaOfNodes.Proofs.Description.Renumbered
import SeaOfNodes.Proofs.Except
import SeaOfNodes.Proofs.Files.Collect
import SeaOfNodes.Proofs.Files.Path
import SeaOfNodes.Proofs.Files.Tree
import SeaOfNodes.Proofs.Graph.Agree
import SeaOfNodes.Proofs.Graph.Arena
import SeaOfNodes.Proofs.Graph.ArenaRun
import SeaOfNodes.Proofs.Graph.Calls
import SeaOfNodes.Proofs.Graph.Consistent
import SeaOfNodes.Proofs.Graph.Conversions
import SeaOfNodes.Proofs.Graph.Following
import SeaOfNodes.Proofs.Graph.Identification
import SeaOfNodes.Proofs.Graph.Lookup
import SeaOfNodes.Proofs.Graph.Multiplicity
import SeaOfNodes.Proofs.Graph.Positions
import SeaOfNodes.Proofs.Graph.Readers
import SeaOfNodes.Proofs.Graph.Rewrites
import SeaOfNodes.Proofs.Graph.Surgery
import SeaOfNodes.Proofs.Graph.Terms
import SeaOfNodes.Proofs.Graph.UseSites
import SeaOfNodes.Proofs.Listing.Blocks
import SeaOfNodes.Proofs.Listing.Causes
import SeaOfNodes.Proofs.Listing.Conservation
import SeaOfNodes.Proofs.Listing.Control
import SeaOfNodes.Proofs.Listing.ControlFlow
import SeaOfNodes.Proofs.Listing.Coverage
import SeaOfNodes.Proofs.Listing.Emission
import SeaOfNodes.Proofs.Listing.Endings
import SeaOfNodes.Proofs.Listing.Execution
import SeaOfNodes.Proofs.Listing.Flow
import SeaOfNodes.Proofs.Listing.FreshRegisters
import SeaOfNodes.Proofs.Listing.HomeFlow
import SeaOfNodes.Proofs.Listing.Inflow
import SeaOfNodes.Proofs.Listing.Listed
import SeaOfNodes.Proofs.Listing.Numbering
import SeaOfNodes.Proofs.Listing.OperandOrder
import SeaOfNodes.Proofs.Listing.Operands
import SeaOfNodes.Proofs.Listing.Paths
import SeaOfNodes.Proofs.Listing.PhiPredecessors
import SeaOfNodes.Proofs.Listing.Placement
import SeaOfNodes.Proofs.Listing.PresetRegisters
import SeaOfNodes.Proofs.Listing.Shape
import SeaOfNodes.Proofs.Listing.StableSort
import SeaOfNodes.Proofs.Listing.Success
import SeaOfNodes.Proofs.Listing.WireRecord
import SeaOfNodes.Proofs.Listing.WireRoundTrip
import SeaOfNodes.Proofs.Lists
import SeaOfNodes.Proofs.Number.Exact
import SeaOfNodes.Proofs.Outcome
import SeaOfNodes.Proofs.Pass.Consistent
import SeaOfNodes.Proofs.Pass.Dangling
import SeaOfNodes.Proofs.Pass.DeadSet
import SeaOfNodes.Proofs.Pass.Forwarding
import SeaOfNodes.Proofs.Pass.Idle
import SeaOfNodes.Proofs.Pass.InPlace
import SeaOfNodes.Proofs.Pass.Kept
import SeaOfNodes.Proofs.Pass.Leftover
import SeaOfNodes.Proofs.Pass.LoweredBlocks
import SeaOfNodes.Proofs.Pass.LoweredHomes
import SeaOfNodes.Proofs.Pass.LoweredOperable
import SeaOfNodes.Proofs.Pass.LoweredOperands
import SeaOfNodes.Proofs.Pass.LoweredOrder
import SeaOfNodes.Proofs.Pass.LoweredTerms
import SeaOfNodes.Proofs.Pass.Lowering
import SeaOfNodes.Proofs.Pass.Report
import SeaOfNodes.Proofs.Pass.Settling
import SeaOfNodes.Proofs.Pass.Totality
import SeaOfNodes.Proofs.Pass.Unannotated
import SeaOfNodes.Proofs.Role
import SeaOfNodes.Proofs.Schedule.AnchorTotality
import SeaOfNodes.Proofs.Schedule.Anchoring
import SeaOfNodes.Proofs.Schedule.BlockClosure
import SeaOfNodes.Proofs.Schedule.BlockOrder
import SeaOfNodes.Proofs.Schedule.BlockPartition
import SeaOfNodes.Proofs.Schedule.CandidateTest
import SeaOfNodes.Proofs.Schedule.Causes
import SeaOfNodes.Proofs.Schedule.Chaining
import SeaOfNodes.Proofs.Schedule.Closure
import SeaOfNodes.Proofs.Schedule.ControlSearch
import SeaOfNodes.Proofs.Schedule.ControlWalk
import SeaOfNodes.Proofs.Schedule.FixedAnchor
import SeaOfNodes.Proofs.Schedule.HomeBlocks
import SeaOfNodes.Proofs.Schedule.Homes
import SeaOfNodes.Proofs.Schedule.LatestPlace
import SeaOfNodes.Proofs.Schedule.LeastOrder
import SeaOfNodes.Proofs.Schedule.LongestPath
import SeaOfNodes.Proofs.Schedule.Orderable
import SeaOfNodes.Proofs.Schedule.Precedence
import SeaOfNodes.Proofs.Schedule.RewrittenBlocks
import SeaOfNodes.Proofs.Schedule.RewrittenHomes
import SeaOfNodes.Proofs.Schedule.Scheduled
import SeaOfNodes.Proofs.Schedule.Sequence
import SeaOfNodes.Proofs.Schedule.StaleNumbers
import SeaOfNodes.Proofs.Schedule.Uses
import SeaOfNodes.Proofs.Schedule.Walk
import SeaOfNodes.Proofs.Text.Bytes
import SeaOfNodes.Props
import SeaOfNodes.Role
import SeaOfNodes.Schedule
import SeaOfNodes.Schedule.Anchor
import SeaOfNodes.Schedule.Block
import SeaOfNodes.Schedule.Closure
import SeaOfNodes.Schedule.Error
import SeaOfNodes.Schedule.Sequence
import SeaOfNodes.Settings.Basic
import SeaOfNodes.Settings.Load
import SeaOfNodes.Text.Composition
import SeaOfNodes.Text.Escape
import SeaOfNodes.Text.Identifier
import SeaOfNodes.Text.Lower
import SeaOfNodes.Text.Normalize
import SeaOfNodes.Text.Printable
import SeaOfNodes.Text.Quoted
import SeaOfNodes.Text.Ranges
import SeaOfNodes.Text.Space
import SeaOfNodes.Toml.Document
import SeaOfNodes.Toml.Numeral
import SeaOfNodes.Toml.Quoted
import SeaOfNodes.Toml.Reader
import SeaOfNodes.Toml.Syntax
