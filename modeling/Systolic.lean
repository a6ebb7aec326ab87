import Systolic.Instruction.Codec
import Systolic.Arith.Binary64
import Systolic.Text.Blank
import Systolic.Text.Lines
import Systolic.Machine.Validity
import Systolic.Memory.Basic
import Systolic.Graph.Parser
import Systolic.Graph.Network
import Systolic.Program.Emission
import Systolic.Program.Lowering
import Systolic.Schedule.Commit
import Systolic.Output.Compiled
import Systolic.Main
import Systolic.Proofs.Instruction.RoundTrip
import Systolic.Proofs.Effect.Ensures
import Systolic.Proofs.Program.WellFormed
import Systolic.Proofs.Program.Semantics
import Systolic.Proofs.Compile.Admissible
import Systolic.Proofs.Graph.Order
import Systolic.Proofs.Lowering.Effects
import Systolic.Proofs.Lowering.Node
import Systolic.Proofs.Lowering.Sound
import Systolic.Proofs.Graph.Denotation
import Systolic.Proofs.Lowering.Meaning
import Systolic.Proofs.Memory.FreeList
import Systolic.Proofs.Memory.Sound
import Systolic.Proofs.Memory.Actions
import Systolic.Proofs.Memory.Requests
import Systolic.Proofs.Memory.Refusals
import Systolic.Proofs.Memory.Gaps
import Systolic.Proofs.Memory.Placement
import Systolic.Proofs.Memory.Victims
import Systolic.Proofs.Instruction.Reach
import Systolic.Proofs.Program.Emission
import Systolic.Proofs.Schedule.Step
import Systolic.Proofs.Schedule.Legal
import Systolic.Proofs.Schedule.Journal
import Systolic.Proofs.Schedule.Sound
import Systolic.Proofs.Schedule.Commit
import Systolic.Proofs.Schedule.Select
import Systolic.Proofs.Compile.Stages
import Systolic.Proofs.Machine.Contents
import Systolic.Proofs.Schedule.Replay
import Systolic.Proofs.Schedule.Reorder
import Systolic.Proofs.Schedule.Refine
import Systolic.Proofs.Schedule.Order
import Systolic.Proofs.Schedule.Trace
import Systolic.Proofs.Schedule.Evictions
import Systolic.Proofs.Schedule.Accumulators
import Systolic.Proofs.Compile.Meaning
import Systolic.Proofs.Compile.Confine
import Systolic.Proofs.Instruction.Canonical
import Systolic.Proofs.Graph.Needed
import Systolic.Proofs.Graph.Search
import Systolic.Proofs.Lowering.Homes
import Systolic.Proofs.Lowering.Discipline
import Systolic.Proofs.Compile.Banks
import Systolic.Proofs.Graph.Parsing
import Systolic.Proofs.Graph.Grammar
import Systolic.Proofs.Graph.Printing
import Systolic.Proofs.Graph.Renumber
import Systolic.Proofs.Lowering.Renumber
import Systolic.Proofs.Compile.Renumber
import Systolic.Proofs.Compile.Independence
import Systolic.Proofs.Instruction.Listing
import Systolic.Proofs.Lowering.Names
import Systolic.Proofs.Compile.Listing
import Systolic.Proofs.Output.Names
import Systolic.Proofs.Output.Header
import Systolic.Proofs.Schedule.EvictionRound
import Systolic.Proofs.Schedule.Round
import Systolic.Proofs.Schedule.Head
import Systolic.Proofs.Compile.Product
import Systolic.Proofs.Arith.Rounding
import Systolic.Proofs.Instruction.Tiling
import Systolic.Proofs.Lowering.Layouts
import Systolic.Proofs.Schedule.HighWater
import Systolic.Proofs.Schedule.ReloadTimes
import Systolic.Proofs.Schedule.Roomy
import Systolic.Proofs.Graph.Draft
import Systolic.Proofs.Graph.FirstFault
import Systolic.Proofs.Schedule.Durations
import Systolic.Proofs.Schedule.NextUse
import Systolic.Proofs.Schedule.Watch
import Systolic.Proofs.Tensor.Blocks
