import Systolic.Instruction.WordLayout

/-
  This file defines which parameters make a machine: a positive
  array, four memories that are not empty, a bus that moves
  whole bytes, and an instruction word that is not too wide.

  Key definitions include:
    * `Machine.check`
-/

namespace Systolic

namespace Machine

/- The depths of the memories, in the order they are looked at. -/
def depths (m : Machine) : List (Store × Nat) :=
  [ (.scratchpad, m.localDepth), (.accumulator, m.accumulatorDepth),
    (.dram0, m.dram0Depth), (.dram1, m.dram1Depth) ]

/- The word layout of a machine, or the first fault of its parameters. -/
def check (m : Machine) : Except MachineFault WordLayout :=
  if m.arraySize = 0 then .error .emptyArray
  else
    match m.depths.find? (fun d => d.2 = 0) with
    | some (store, _) => .error (.emptyStore store)
    | none =>
        if m.busWidth = 0 ∨ m.busWidth % 8 ≠ 0 then
          .error (.busWidth m.busWidth)
        else WordLayout.ofMachine m

end Machine

end Systolic
