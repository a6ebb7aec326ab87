import Systolic.Arith.Binary64
import Systolic.Text.Lines
import Systolic.Schedule.Basic

/-
  This file defines the summary of a compilation and its text.

  Key definitions include:
    * `Summary`
    * `Summary.collect`
    * `Summary.text`
-/

namespace Systolic

/- The numbers that a compilation reports. -/
structure Summary where
  operations : Nat
  instructions : Nat
  programBytes : Nat
  instructionCounts : List (Opcode × Nat)
  peakLocal : Nat
  localCapacity : Nat
  peakAccumulator : Nat
  accumulatorCapacity : Nat
  allocations : Nat
  spills : Nat
  reloads : Nat
  totalCycles : Nat
  busyLoad : Nat
  busyCompute : Nat
  busyStore : Nat
  dram0Used : Nat
  dram1Used : Nat
deriving DecidableEq, Repr

namespace Summary

/- How many instructions of each kind there are, of kinds that occur. -/
def countInstructions (is : List Instruction) : List (Opcode × Nat) :=
  (Opcode.all.map (fun op => (op, is.countP (fun i => i.opcode = op)))).filter
    (fun c => 0 < c.2)

/- The summary of a schedule. -/
def collect
    (m : Machine)
    (s : Schedule)
    (stats : MemoryStats)
    (dram : Dram) : Summary :=
  { operations := s.ops.length
    instructions := s.instructions.length
    programBytes := s.bytes.length
    instructionCounts := countInstructions s.instructions
    peakLocal := stats.peakLocal
    localCapacity := m.localDepth
    peakAccumulator := stats.peakAccumulator
    accumulatorCapacity := m.accumulatorDepth
    allocations := stats.allocations
    spills := s.spills
    reloads := s.reloads
    totalCycles := s.totalCycles
    busyLoad := s.busyCycles .load
    busyCompute := s.busyCycles .compute
    busyStore := s.busyCycles .store
    dram0Used := dram.used0
    dram1Used := dram.used1 }

/- The cycles in which a unit works. -/
def busy
    (s : Summary) : Resource → Nat
| .load => s.busyLoad
| .compute => s.busyCompute
| .store => s.busyStore

/- The line of a peak. -/
def peakLine
    (title : String)
    (peak capacity : Nat) : String :=
  s!"  {title} peak: {peak}/{capacity} vectors ({percentText peak capacity}%)"

/- The line of a unit. -/
def busyLine
    (s : Summary)
    (r : Resource) : String :=
  s!"    {r.name} busy: {s.busy r} ({percentText (s.busy r) s.totalCycles}%)"

/- The lines about kinds of instruction, if there are any. -/
def countLines (s : Summary) : List String :=
  match s.instructionCounts with
  | [] => []
  | counts =>
      "  Instruction breakdown:" ::
        counts.map (fun (op, n) => s!"    {op.mnemonic}: {n}")

/- The lines of a summary. -/
def textLines (s : Summary) : List String :=
  [ "Compilation Summary:",
    s!"  Operations committed: {s.operations}",
    s!"  Instructions emitted: {s.instructions}",
    s!"  Program size: {s.programBytes} bytes",
    peakLine "Local memory" s.peakLocal s.localCapacity,
    peakLine "Accumulator" s.peakAccumulator s.accumulatorCapacity,
    s!"  Allocations: {s.allocations}",
    s!"  Spills generated: {s.spills}",
    s!"  Reloads generated: {s.reloads}",
    s!"  DRAM0 used: {s.dram0Used} vectors",
    s!"  DRAM1 used: {s.dram1Used} vectors",
    s!"  Estimated cycles: {s.totalCycles}" ] ++
    Resource.all.map s.busyLine ++ s.countLines

/- The text of a summary. -/
def text (s : Summary) : String :=
  unlines s.textLines

end Summary

end Systolic
