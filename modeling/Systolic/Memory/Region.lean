/-
  This file defines the two memories on the chip and runs of
  vectors in them.

  Key definitions include:
    * `MemoryKind`
    * `Region`
    * `Region.stop`
    * `Region.Overlaps`
-/

namespace Systolic

------------------------------------------------------------
-- Kinds of Memory
------------------------------------------------------------

/- The memories on the chip. -/
inductive MemoryKind where
| scratchpad
| accumulator
deriving DecidableEq, Repr

namespace MemoryKind

/- Both memories. -/
def all : List MemoryKind :=
  [scratchpad, accumulator]

/- The name of a memory. -/
def name : MemoryKind → String
| scratchpad => "local"
| accumulator => "accumulator"

end MemoryKind

------------------------------------------------------------
-- Regions
------------------------------------------------------------

/- The `length` vectors from `start` on. -/
structure Region where
  start : Nat
  length : Nat
deriving DecidableEq, Repr

namespace Region

/- The first address after a region. -/
def stop (r : Region) : Nat :=
  r.start + r.length

/- Each region starts before the other one stops. -/
def Overlaps
    (r s : Region) : Prop :=
  r.start < s.stop ∧ s.start < r.stop

instance (r s : Region) : Decidable (r.Overlaps s) := by
  unfold Overlaps
  infer_instance

/- One region lies inside another. -/
def Inside
    (r s : Region) : Prop :=
  s.start ≤ r.start ∧ r.stop ≤ s.stop

instance (r s : Region) : Decidable (r.Inside s) := by
  unfold Inside
  infer_instance

end Region

end Systolic
