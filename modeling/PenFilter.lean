import PenFilter.Main
import PenFilter.Stage.Shared
import PenFilter.Stage.Snapshot
import PenFilter.Proofs.Formula.Recognition
import PenFilter.Proofs.Formula.Execution
import PenFilter.Proofs.Filter.Fallback
import PenFilter.Proofs.History
import PenFilter.Proofs.Variant
import PenFilter.Proofs.Stage.Process
import PenFilter.Proofs.Stage.Memory
import PenFilter.Proofs.Stage.Configure
import PenFilter.Proofs.Stage.Report
import PenFilter.Proofs.Formula.Operands
import PenFilter.Proofs.Stage.Ready
import PenFilter.Proofs.Stage.Forgetting
import PenFilter.Proofs.Number.Packing
import PenFilter.Proofs.Number.Rounding
import PenFilter.Proofs.Number.Conversion
import PenFilter.Proofs.Stage.Identity
import PenFilter.Proofs.Number.Decimal
import PenFilter.Proofs.Formula.Depth
import PenFilter.Proofs.Formula.Scan
import PenFilter.Proofs.Formula.Leaves
import PenFilter.Proofs.Formula.Display
import PenFilter.Proofs.Formula.Extension
import PenFilter.Proofs.Stage.Position
import PenFilter.Proofs.Stage.Confinement
import PenFilter.Proofs.Stage.Widening
import PenFilter.Proofs.Json.Literal
import PenFilter.Proofs.Json.Reader
import PenFilter.Proofs.Report
import PenFilter.Proofs.Command.Replay
import PenFilter.Proofs.Command.Recording
import PenFilter.Proofs.Text
import PenFilter.Proofs.Formula.Height
import PenFilter.Proofs.Stage.Latest
import PenFilter.Proofs.Stage.Shared
import PenFilter.Proofs.Json.Record
import PenFilter.Proofs.Json.Pretty
import PenFilter.Proofs.Command.Document
import PenFilter.Proofs.Stage.Fallbacks
import PenFilter.Proofs.Command.Check
import PenFilter.Proofs.Formula.Bounds
import PenFilter.Proofs.Formula.Simulation
import PenFilter.Proofs.Formula.Nesting
import PenFilter.Proofs.Formula.Juxtaposition
import PenFilter.Proofs.Formula.Completion
import PenFilter.Proofs.Formula.Lexeme
import PenFilter.Proofs.Formula.Tiling
import PenFilter.Proofs.Formula.Relocation
import PenFilter.Proofs.Formula.Spacing
import PenFilter.Proofs.Formula.Folding
import PenFilter.Proofs.Formula.Compatibility
import PenFilter.Proofs.Stage.Order
import PenFilter.Proofs.History.Run
import PenFilter.Proofs.Command.Binding
import PenFilter.Proofs.Formula.Bookkeeping
