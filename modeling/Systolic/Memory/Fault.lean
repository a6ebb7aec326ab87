import Systolic.Tensor.Basic

/-
  This file defines the ways in which a request to the memories
  on the chip fails, and their wording.

  Key definitions include:
    * `MemoryFault`
    * `MemoryFault.message`
    * `MemoryError`
-/

namespace Systolic

/- A request that contradicts what is in memory. -/
inductive MemoryFault where
| alreadyResident (name : String) (tensor : TensorId)
| notFree (kind : MemoryKind) (region : Region)
| notAllocated (tensor : TensorId)
| releasedPinned (tensor : TensorId)
| releasedTwice (kind : MemoryKind) (region : Region)
| cannotSpill (tensor : TensorId)
| cannotPin (tensor : TensorId)
| notPinned (tensor : TensorId)
| overlap (first second : TensorId) (kind : MemoryKind)
| miscounted (kind : MemoryKind) (held used : Nat)
deriving DecidableEq, Repr

/- The wording of a fault. -/
def MemoryFault.message : MemoryFault → String
| alreadyResident name tensor =>
    s!"{name} ({tensor.text}) is already resident"
| notFree kind region =>
    s!"{kind.name}[{region.start}..{region.stop}] is not free"
| notAllocated tensor =>
    s!"{tensor.text} is not allocated"
| releasedPinned tensor =>
    s!"{tensor.text} released while pinned"
| releasedTwice kind region =>
    s!"{kind.name}[{region.start}..{region.stop}] released twice"
| cannotSpill tensor =>
    s!"{tensor.text} lives in accumulator memory and cannot be spilled"
| cannotPin tensor =>
    s!"cannot pin {tensor.text}: not resident"
| notPinned tensor =>
    s!"{tensor.text} unpinned more often than pinned"
| overlap first second kind =>
    s!"{first.text} and {second.text} overlap in {kind.name} memory"
| miscounted kind held used =>
    s!"{kind.name} memory holds {held} vectors but {used} are in use"

/- Why a request to the memories fails. -/
inductive MemoryError where
| outOfMemory
    (tensor : String)
    (kind : MemoryKind)
    (requested capacity : Nat)
| invariant (fault : MemoryFault)
deriving DecidableEq, Repr

end Systolic
