import LeastPrivilege.CallGraph.Basic
import LeastPrivilege.CallGraph.OfProgram
import LeastPrivilege.CallGraph.Targets
import LeastPrivilege.Capability.Basic
import LeastPrivilege.Capability.Codec
import LeastPrivilege.Capability.Set
import LeastPrivilege.Capability.Spelling
import LeastPrivilege.CommandLine.Arguments
import LeastPrivilege.CommandLine.Run
import LeastPrivilege.CommandLine.Word
import LeastPrivilege.Decimal.Dyadic
import LeastPrivilege.Decimal.Fixed
import LeastPrivilege.Decimal.Shortest
import LeastPrivilege.Drop.Insertion
import LeastPrivilege.Drop.Plan
import LeastPrivilege.Error
import LeastPrivilege.Json.Basic
import LeastPrivilege.Json.Decode
import LeastPrivilege.Json.Number
import LeastPrivilege.Json.Printer
import LeastPrivilege.Json.Reader
import LeastPrivilege.Json.Token
import LeastPrivilege.Loading
import LeastPrivilege.Main
import LeastPrivilege.Profile.Counter
import LeastPrivilege.Profile.Instrumentation
import LeastPrivilege.Profile.Pass
import LeastPrivilege.Profile.Routine
import LeastPrivilege.Program.Basic
import LeastPrivilege.Program.Codec
import LeastPrivilege.Program.Edit
import LeastPrivilege.Program.Lookup
import LeastPrivilege.Program.Rewriting
import LeastPrivilege.Program.Signature
import LeastPrivilege.Proofs.Accounting
import LeastPrivilege.Proofs.Analysis
import LeastPrivilege.Proofs.BlockwiseInstrumentation
import LeastPrivilege.Proofs.Buckets
import LeastPrivilege.Proofs.CapabilityOperands
import LeastPrivilege.Proofs.CapabilitySets
import LeastPrivilege.Proofs.CheckedInstrumentation
import LeastPrivilege.Proofs.CheckedPlans
import LeastPrivilege.Proofs.DistinctNames
import LeastPrivilege.Proofs.DropPlacement
import LeastPrivilege.Proofs.EntryIsolation
import LeastPrivilege.Proofs.EntryPaths
import LeastPrivilege.Proofs.Extension
import LeastPrivilege.Proofs.Extraction
import LeastPrivilege.Proofs.ExtractionTables
import LeastPrivilege.Proofs.GraphGrowth
import LeastPrivilege.Proofs.GraphShape
import LeastPrivilege.Proofs.History
import LeastPrivilege.Proofs.InPlace
import LeastPrivilege.Proofs.InheritedCounters
import LeastPrivilege.Proofs.InsertedCalls
import LeastPrivilege.Proofs.InstrumentedInPlace
import LeastPrivilege.Proofs.Interleaving
import LeastPrivilege.Proofs.Invisible
import LeastPrivilege.Proofs.JsonFields
import LeastPrivilege.Proofs.JsonSpelling
import LeastPrivilege.Proofs.JsonText
import LeastPrivilege.Proofs.Ledger
import LeastPrivilege.Proofs.Lists
import LeastPrivilege.Proofs.Names
import LeastPrivilege.Proofs.Padding
import LeastPrivilege.Proofs.Presentation
import LeastPrivilege.Proofs.Preservation
import LeastPrivilege.Proofs.ProfiledDrops
import LeastPrivilege.Proofs.ProgramGraph
import LeastPrivilege.Proofs.ProgramText
import LeastPrivilege.Proofs.Propagation
import LeastPrivilege.Proofs.Reachability
import LeastPrivilege.Proofs.ReportText
import LeastPrivilege.Proofs.RequirementOrder
import LeastPrivilege.Proofs.ResolvedCalls
import LeastPrivilege.Proofs.Results
import LeastPrivilege.Proofs.Slots
import LeastPrivilege.Proofs.Spellings
import LeastPrivilege.Proofs.Statistics
import LeastPrivilege.Proofs.Sweeps
import LeastPrivilege.Proofs.Tables
import LeastPrivilege.Proofs.Tallies
import LeastPrivilege.Proofs.TextReachability
import LeastPrivilege.Proofs.Totals
import LeastPrivilege.Proofs.UndeclaredCallees
import LeastPrivilege.Proofs.WindowBounds
import LeastPrivilege.Proofs.WindowCounts
import LeastPrivilege.Proofs.Windows
import LeastPrivilege.Report
import LeastPrivilege.Requirement.Local
import LeastPrivilege.Requirement.Node
import LeastPrivilege.Requirement.Propagation
import LeastPrivilege.Requirement.Table
import LeastPrivilege.Settings.Basic
import LeastPrivilege.Settings.Codec
import LeastPrivilege.SignalHandlers
import LeastPrivilege.Text.Blank
import LeastPrivilege.Text.Numeral
import LeastPrivilege.Text.Quoted
import LeastPrivilege.Text.Unseen
import LeastPrivilege.Toml.Basic
import LeastPrivilege.Toml.Quoted
import LeastPrivilege.Toml.Reader
import LeastPrivilege.Toml.Scalar
