import GuardFinder.Address
import GuardFinder.Analysis
import GuardFinder.Bytecode
import GuardFinder.Cli.Batch
import GuardFinder.Cli.Command
import GuardFinder.Cli.Host
import GuardFinder.Cli.LogOutput
import GuardFinder.Cli.LogRule
import GuardFinder.Cli.Options
import GuardFinder.Cli.Summary
import GuardFinder.Cli.Transcript
import GuardFinder.Decimal.Binary
import GuardFinder.Decimal.Fixed
import GuardFinder.Decimal.Shortest
import GuardFinder.Detect.Detector
import GuardFinder.Detect.HashLock
import GuardFinder.Detect.MultipleAuthorization
import GuardFinder.Detect.OffChainSecret
import GuardFinder.Detect.Ownership
import GuardFinder.Detect.Registry
import GuardFinder.Detect.Roles
import GuardFinder.Detect.SingleOwner
import GuardFinder.Detect.Watch
import GuardFinder.Detect.XConfirmation
import GuardFinder.Error
import GuardFinder.Explore.Execute
import GuardFinder.Explore.Explorer
import GuardFinder.Explore.Machine
import GuardFinder.Explore.Path
import GuardFinder.Explore.Slots
import GuardFinder.Explore.Trail
import GuardFinder.FileTree
import GuardFinder.Finding
import GuardFinder.Keccak
import GuardFinder.Log
import GuardFinder.Main
import GuardFinder.Memory
import GuardFinder.Opcode
import GuardFinder.Oracle
import GuardFinder.Pathname
import GuardFinder.Pattern
import GuardFinder.Program
import GuardFinder.Proofs.Arithmetic
import GuardFinder.Proofs.BatchReports
import GuardFinder.Proofs.Blocks
import GuardFinder.Proofs.Boundary
import GuardFinder.Proofs.Bounds
import GuardFinder.Proofs.ByteArrays
import GuardFinder.Proofs.ByteView
import GuardFinder.Proofs.BytecodeTexts
import GuardFinder.Proofs.Bytes
import GuardFinder.Proofs.Comparisons
import GuardFinder.Proofs.CopiedBytes
import GuardFinder.Proofs.Coverage
import GuardFinder.Proofs.Deduplication
import GuardFinder.Proofs.Delivery
import GuardFinder.Proofs.Deployment
import GuardFinder.Proofs.Disassembly
import GuardFinder.Proofs.Effects
import GuardFinder.Proofs.Emissions
import GuardFinder.Proofs.Evm
import GuardFinder.Proofs.Exclusion
import GuardFinder.Proofs.Execution
import GuardFinder.Proofs.Faults
import GuardFinder.Proofs.FileTrees
import GuardFinder.Proofs.Folding
import GuardFinder.Proofs.Forest
import GuardFinder.Proofs.Forks
import GuardFinder.Proofs.Forwarding
import GuardFinder.Proofs.FunctionNames
import GuardFinder.Proofs.GuardWitnesses
import GuardFinder.Proofs.HashInputs
import GuardFinder.Proofs.HashedRange
import GuardFinder.Proofs.Heights
import GuardFinder.Proofs.Hooks
import GuardFinder.Proofs.Influence
import GuardFinder.Proofs.Inspections
import GuardFinder.Proofs.Lineage
import GuardFinder.Proofs.Lockstep
import GuardFinder.Proofs.LossyText
import GuardFinder.Proofs.MemoryAddresses
import GuardFinder.Proofs.MemoryBounds
import GuardFinder.Proofs.MemoryReaders
import GuardFinder.Proofs.MemoryRows
import GuardFinder.Proofs.Moments
import GuardFinder.Proofs.Notifications
import GuardFinder.Proofs.Observation
import GuardFinder.Proofs.Openings
import GuardFinder.Proofs.OperandMarks
import GuardFinder.Proofs.OperandOrder
import GuardFinder.Proofs.Order
import GuardFinder.Proofs.Owners
import GuardFinder.Proofs.PackedHashes
import GuardFinder.Proofs.Propagation
import GuardFinder.Proofs.Pruning
import GuardFinder.Proofs.PushData
import GuardFinder.Proofs.Recognition
import GuardFinder.Proofs.Recording
import GuardFinder.Proofs.Refutation
import GuardFinder.Proofs.Relocation
import GuardFinder.Proofs.Renaming
import GuardFinder.Proofs.Renumbering
import GuardFinder.Proofs.Repetition
import GuardFinder.Proofs.ReportNames
import GuardFinder.Proofs.Reruns
import GuardFinder.Proofs.Retagging
import GuardFinder.Proofs.ReturnedCode
import GuardFinder.Proofs.Safety
import GuardFinder.Proofs.Searches
import GuardFinder.Proofs.Selection
import GuardFinder.Proofs.Separation
import GuardFinder.Proofs.SideBySide
import GuardFinder.Proofs.Sights
import GuardFinder.Proofs.Signals
import GuardFinder.Proofs.Simulation
import GuardFinder.Proofs.SinglePaths
import GuardFinder.Proofs.SnapshotOrders
import GuardFinder.Proofs.Spelling
import GuardFinder.Proofs.Steps
import GuardFinder.Proofs.Stories
import GuardFinder.Proofs.Survey
import GuardFinder.Proofs.Tags
import GuardFinder.Proofs.Tracking
import GuardFinder.Proofs.Turns
import GuardFinder.Proofs.Valuation
import GuardFinder.Proofs.Verdicts
import GuardFinder.Report
import GuardFinder.Settings
import GuardFinder.Settings.Reader
import GuardFinder.Snapshot
import GuardFinder.StateSpace
import GuardFinder.Taint
import GuardFinder.Target
import GuardFinder.Term
import GuardFinder.Text.Alphabetic
import GuardFinder.Text.Blank
import GuardFinder.Text.CodeRange
import GuardFinder.Text.Cut
import GuardFinder.Text.Hex
import GuardFinder.Text.Json
import GuardFinder.Text.Json.Printer
import GuardFinder.Text.Json.Reader
import GuardFinder.Text.Markdown
import GuardFinder.Text.Numeral
import GuardFinder.Text.Numeric
import GuardFinder.Text.Regex
import GuardFinder.Text.Regex.Class
import GuardFinder.Text.Regex.Item
import GuardFinder.Text.Regex.Mode
import GuardFinder.Text.Utf8
import GuardFinder.Value
import GuardFinder.Word
