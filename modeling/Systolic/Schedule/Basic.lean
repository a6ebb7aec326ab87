import Systolic.Program.Emission

/-
  This file defines schedules: the operations in the order in
  which they are committed, with their estimated cycles and
  their instructions.

  Key definitions include:
    * `CommittedOp`
    * `Schedule`
    * `Schedule.totalCycles`
    * `Schedule.busyCycles`
    * `Schedule.spills`
    * `Schedule.reloads`
-/

namespace Systolic

/-
  A committed operation: its place in the program, unless it was
  added by the scheduler, the unit and the cycles that it takes,
  and the range of its instructions.
-/
structure CommittedOp where
  operation : Operation
  origin : Option Nat
  resource : Resource
  startCycle : Nat
  endCycle : Nat
  firstInstruction : Nat
  lastInstruction : Nat
deriving DecidableEq, Repr

/- The committed operations with the stream of their instructions. -/
structure Schedule where
  ops : List CommittedOp
  instructions : List Instruction
  bytes : List UInt8
deriving DecidableEq, Repr

namespace Schedule

/- The cycle in which the last operation ends. -/
def totalCycles (s : Schedule) : Nat :=
  (s.ops.map (·.endCycle)).foldl max 0

/- The cycles in which a unit works. -/
def busyCycles
    (s : Schedule)
    (r : Resource) : Nat :=
  ((s.ops.filter (fun op => op.resource = r)).map
    (fun op => op.endCycle - op.startCycle)).foldl Count.addSat 0

/- The number of tensors that were moved off the chip. -/
def spills (s : Schedule) : Nat :=
  s.ops.countP
    (fun op => match op.operation with | .spill _ => true | _ => false)

/- The number of tensors that were moved back. -/
def reloads (s : Schedule) : Nat :=
  s.ops.countP
    (fun op => match op.operation with | .reload _ => true | _ => false)

end Schedule

end Systolic
