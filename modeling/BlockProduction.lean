import BlockProduction.Assembler.Service
import BlockProduction.Pool.Snapshot
import BlockProduction.Proofs.Block.Validity
import BlockProduction.Proofs.Bytes
import BlockProduction.Proofs.Config
import BlockProduction.Proofs.Mining.Soundness
import BlockProduction.Proofs.Pool.Consistency
import BlockProduction.Proofs.Pool.Parts
import BlockProduction.Proofs.Pool.Views
import BlockProduction.Proofs.Pool.Closure
import BlockProduction.Proofs.RankedTree
import BlockProduction.Proofs.Selection.Figures
import BlockProduction.Proofs.Selection.Greedy
import BlockProduction.Proofs.Selection.Ledger
import BlockProduction.Proofs.Selection.Mirror
import BlockProduction.Proofs.Selection.Outcome
import BlockProduction.Proofs.Selection.Packages
import BlockProduction.Proofs.Selection.Parts
import BlockProduction.Proofs.Selection.Queue
import BlockProduction.Proofs.Selection.Reference
import BlockProduction.Proofs.Selection.Report
import BlockProduction.Proofs.Selection.Rerun
import BlockProduction.Proofs.Selection.Simulation
import BlockProduction.Proofs.Selection.Sums
import BlockProduction.Proofs.Selection.Validity
import BlockProduction.Records.Block
import BlockProduction.Records.Config
import BlockProduction.Records.Mining
import BlockProduction.Records.Selection
import BlockProduction.Telemetry
import BlockProduction.Proofs.Mining.Course
import BlockProduction.Proofs.Mining.Visits
import BlockProduction.Proofs.Mining.Agreement
import BlockProduction.Proofs.Selection.Maturity
import BlockProduction.Proofs.Assembler.Production
import BlockProduction.Proofs.Assembler.History
import BlockProduction.Proofs.Pool.Numbering
import BlockProduction.Proofs.Selection.Admission
import BlockProduction.Proofs.Selection.Determinism
import BlockProduction.Proofs.Assembler.Overlap
import BlockProduction.Proofs.Mining.Origins
import BlockProduction.Proofs.Selection.Floor
import BlockProduction.Proofs.Selection.Prolonged
import BlockProduction.Proofs.Selection.Presentation
import BlockProduction.Proofs.Selection.Operations
import BlockProduction.Proofs.Mining.HeaderHash
import BlockProduction.Proofs.Mining.Splitting
import BlockProduction.Proofs.Mining.Acceptance
import BlockProduction.Proofs.Selection.Ranking
import BlockProduction.Proofs.CompactTarget.Value
import BlockProduction.Proofs.CompactTarget.Rounding
import BlockProduction.Proofs.Finality.Rules
import BlockProduction.Proofs.Selection.Gate
import BlockProduction.Proofs.Hash.Merkle
import BlockProduction.Proofs.CompactSize
import BlockProduction.Proofs.Codec
import BlockProduction.Proofs.Block.Subsidy
import BlockProduction.Proofs.Block.Header
import BlockProduction.Proofs.Block.Coinbase
import BlockProduction.Proofs.Block.Template
import BlockProduction.Proofs.Mining.Tallies
import BlockProduction.Proofs.Selection.Rates
import BlockProduction.Proofs.Pool.Creation
