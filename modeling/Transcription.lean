import Transcription.Report
import Transcription.Poly.Tape
import Transcription.Proofs.Exact
import Transcription.Proofs.Partition
import Transcription.Proofs.Poly.Evaluation
import Transcription.Proofs.Noted
import Transcription.Proofs.Poly.Polynomials
import Transcription.Proofs.Horizon.Expansion
import Transcription.Proofs.Poly.Vanishing
import Transcription.Proofs.Poly.Folding
import Transcription.Proofs.Poly.Narrowing
import Transcription.Proofs.Program.Unfolding
import Transcription.Proofs.Network.Rules
import Transcription.Proofs.Network.Closure
import Transcription.Proofs.Block.Expressions
import Transcription.Proofs.Block.Recording
import Transcription.Proofs.Wire.Nets
import Transcription.Proofs.Network.Wiring
import Transcription.Proofs.Program.Dynamics
import Transcription.Proofs.Program.Sharing
import Transcription.Proofs.Program.Stages
import Transcription.Proofs.Program.Discrete
import Transcription.Proofs.Program.Restriction
import Transcription.Proofs.Poly.Linear
import Transcription.Proofs.Integration.Coupling
import Transcription.Proofs.Program.Collocation
import Transcription.Proofs.Network.Leastness
import Transcription.Proofs.Network.Registration
import Transcription.Proofs.Wire.Aliases
import Transcription.Proofs.Network.Routing
import Transcription.Proofs.Program.Origins
import Transcription.Proofs.Wire.Limits
import Transcription.Proofs.Horizon.Variables
import Transcription.Proofs.Network.Demand
import Transcription.Proofs.Network.Sinks
import Transcription.Proofs.Network.Burdens
import Transcription.Proofs.Program.Assembly
import Transcription.Proofs.Program.Completion
import Transcription.Proofs.Program.Continuity
import Transcription.Proofs.Program.Emptiness
import Transcription.Proofs.Program.Rows
import Transcription.Proofs.Program.Entries
import Transcription.Proofs.Program.Bounds
import Transcription.Proofs.Program.Costs
import Transcription.Proofs.Wire.Merging
import Transcription.Proofs.Program.Sizes
import Transcription.Proofs.Network.Reach
import Transcription.Proofs.Network.Discovery
import Transcription.Proofs.Network.Visiting
import Transcription.Proofs.Network.Tracing
import Transcription.Proofs.Network.Lowering
import Transcription.Proofs.Network.Producers
import Transcription.Proofs.Poly.Moves
import Transcription.Proofs.Program.Listing
import Transcription.Proofs.Program.Covering
import Transcription.Proofs.Program.Determination
import Transcription.Proofs.Program.Accounting
import Transcription.Proofs.Program.Sections
import Transcription.Proofs.Program.Indexing
import Transcription.Proofs.Program.Lookup
import Transcription.Proofs.Program.Names
import Transcription.Proofs.Block.Values
import Transcription.Proofs.Block.Arithmetic
import Transcription.Proofs.Block.Faults
import Transcription.Proofs.Diagram.Settling
import Transcription.Proofs.Diagram.Dependence
import Transcription.Proofs.Diagram.Reordering
import Transcription.Proofs.Poly.Derivative
import Transcription.Proofs.Wire.Idempotence
import Transcription.Proofs.Wire.Cycles
import Transcription.Proofs.Network.Splitting
import Transcription.Proofs.Diagram.Calls
import Transcription.Proofs.Program.Findings
import Transcription.Proofs.Program.Windows
import Transcription.Proofs.Program.Residuals
import Transcription.Diagram.Sheet
import Transcription.Proofs.Diagram.Numbering
import Transcription.Proofs.Partition.Connections
import Transcription.Proofs.Poly.Composition
