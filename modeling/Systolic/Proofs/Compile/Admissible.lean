import Systolic.Program.Emission

/-
  This file defines the failures that a compilation may end with:
  faults of the graph or of the machine, a tensor that fits no
  memory on the chip, and a region of DRAM that leaves the range
  of addresses or its bank.

  Key definitions include:
    * `Machine.bankDepth`
    * `CompileError.Admissible`
-/

namespace Systolic

/- The depth of a DRAM bank. -/
def Machine.bankDepth
    (m : Machine) : DramBank → Nat
| .dram0 => m.dram0Depth
| .dram1 => m.dram1Depth

theorem Placement.bankDepth_eq
    (p : Placement)
    (bank : DramBank) :
    p.bankDepth bank = p.machine.bankDepth bank := by
  cases bank <;> rfl

/- A failure that a compilation for a machine may end with. -/
inductive CompileError.Admissible (m : Machine) : CompileError → Prop
| graph (error : GraphError) :
    Admissible m (.graph error)
| machine (fault : MachineFault) :
    Admissible m (.machine fault)
| outOfMemory (name : String) (kind : MemoryKind)
    (requested capacity : Nat) :
    Admissible m (.memory (.outOfMemory name kind requested capacity))
| beyondCounts (overflow : DramOverflow)
    (hOverflow : Count.limit ≤ overflow.address + overflow.size) :
    Admissible m (.encoding (.beyondCounts overflow))
| beyondBank (subject : String) (location : DramLocation) (size : Nat)
    (hBeyond :
      m.bankDepth location.bank < location.address + size) :
    Admissible m
      (.encoding (.beyondBank subject location size
        (m.bankDepth location.bank)))

end Systolic
