import Systolic.Arith.Count
import Systolic.Memory.Region

/-
  This file defines the free regions of one memory. They are
  kept sorted by address, and no two of them touch. A request
  is placed in the smallest region that can hold it, and in the
  lowest one of these.

  Key definitions include:
    * `FreeList`
    * `Region.fit?`
    * `FreeList.bestFit`
    * `FreeList.reserve?`
    * `FreeList.release?`
    * `FreeList.used`
-/

namespace Systolic

/- The free regions of a memory of a given capacity. -/
structure FreeList where
  capacity : Nat
  regions : List Region
deriving DecidableEq, Repr

/-
  The first aligned address at which a region holds `size`
  vectors. An address is a count, so the first one after a start
  near the limit wraps around.
-/
def Region.fit?
    (r : Region)
    (size alignment : Nat) : Option Nat :=
  let unit := max alignment 1
  let address := Count.mulWrap (Count.ceilDiv r.start unit) unit
  if address + size ≤ r.stop then some address else none

namespace FreeList

/- Sums start from the literal zero. -/
attribute [local instance (high)] Zero.ofOfNat0

/- A memory that is free as a whole. -/
def full (capacity : Nat) : FreeList :=
  { capacity, regions := [{ start := 0, length := capacity }] }

------------------------------------------------------------
-- Placement
------------------------------------------------------------

/-
  The smallest region that fits, with the address in it. Of two
  regions of one length the earlier one is taken.
-/
def smallestFit
    (size alignment : Nat) : List Region → Option (Region × Nat)
| [] => none
| r :: rs =>
    match r.fit? size alignment, smallestFit size alignment rs with
    | none, found => found
    | some address, none => some (r, address)
    | some address, some (s, later) =>
        if r.length ≤ s.length then some (r, address) else some (s, later)

/- The address at which a request is placed. -/
def bestFit
    (l : FreeList)
    (size alignment : Nat) : Option Nat :=
  (smallestFit size alignment l.regions).map (·.2)

/- What is left of a region around a part of it. -/
def remainder
    (r wanted : Region) : List Region :=
  [ { start := r.start, length := wanted.start - r.start },
    { start := wanted.stop, length := r.stop - wanted.stop } ].filter
      (fun piece => 0 < piece.length)

/- Take a part out of the first region that holds it. -/
def carve?
    (wanted : Region) : List Region → Option (List Region)
| [] => none
| r :: rs =>
    if wanted.Inside r then some (remainder r wanted ++ rs)
    else (carve? wanted rs).map (r :: ·)

/- Take a region out of a free list. -/
def reserve?
    (l : FreeList)
    (wanted : Region) : Option FreeList :=
  (carve? wanted l.regions).map (fun regions => { l with regions })

------------------------------------------------------------
-- Release
------------------------------------------------------------

/- Put a region in front of the regions after it, joined to the next. -/
def joinNext
    (r : Region) : List Region → List Region
| [] => [r]
| s :: ss =>
    if r.stop = s.start then
      { r with length := r.length + s.length } :: ss
    else r :: s :: ss

/- Put a sorted list behind the regions before it, joined to the last. -/
def joinPrevious
    (rs : List Region) : List Region → List Region
| [] => rs
| [p] =>
    match rs with
    | [] => [p]
    | r :: rest => joinNext p (r :: rest)
| p :: q :: ps => p :: joinPrevious rs (q :: ps)

/-
  Return a region. This fails if it leaves the memory or meets
  the free region before or after it.
-/
def release?
    (l : FreeList)
    (r : Region) : Option FreeList :=
  let before := l.regions.takeWhile (fun s => s.start < r.start)
  let after := l.regions.dropWhile (fun s => s.start < r.start)
  if l.capacity < r.stop ∨
      (before.getLast?.any (fun s => s.Overlaps r)) = true ∨
      (after.head?.any (fun s => s.Overlaps r)) = true then none
  else
    some { l with regions := joinPrevious (joinNext r after) before }

------------------------------------------------------------
-- Usage
------------------------------------------------------------

/- The vectors that are not free. -/
def used (l : FreeList) : Nat :=
  l.capacity - (l.regions.map (·.length)).sum

end FreeList

end Systolic
