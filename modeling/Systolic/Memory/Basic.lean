import Systolic.Lists.Sorting
import Systolic.Memory.FreeList
import Systolic.Memory.Fault

/-
  This file defines the memories on the chip: which tensors are
  resident, where they were placed over time, and which of them
  have to leave when a request does not fit.

  A request that fits no free region names victims: resident
  tensors of the scratchpad that are not pinned, those with the
  furthest next use first, then the larger ones, then those of
  lower number, up to the first that makes room. Tensors in the
  accumulator memory never leave.

  Every action returns the memory together with its result,
  also when it fails.

  Key definitions include:
    * `Memory`
    * `Memory.Action`
    * `Memory.allocate`
    * `Memory.free`
    * `Memory.spill`
    * `Memory.pin`
    * `Memory.audit`
-/

namespace Systolic

------------------------------------------------------------
-- Bindings
------------------------------------------------------------

/-
  A tensor in memory, with the positions of the schedule at
  which it was placed and released, and whether it left for
  want of room.
-/
structure Binding where
  tensor : TensorId
  kind : MemoryKind
  address : Nat
  size : Nat
  allocatedAt : Nat
  releasedAt : Option Nat
  spilled : Bool
deriving DecidableEq, Repr

namespace Binding

/- The vectors of a binding. -/
def region (b : Binding) : Region :=
  { start := b.address, length := b.size }

/- A binding holds its region at a position. -/
def LiveAt
    (b : Binding)
    (position : Nat) : Prop :=
  b.allocatedAt ≤ position ∧ ∀ stop ∈ b.releasedAt, position ≤ stop

instance
    (b : Binding)
    (position : Nat) :
    Decidable (b.LiveAt position) := by
  unfold LiveAt
  infer_instance

end Binding

/-
  A tensor on the chip: its binding and the place of that in the
  history, how often it is pinned, and its next use. Pins are
  counted in a word of 32 bits.
-/
structure Resident where
  binding : Binding
  entry : Nat
  pins : UInt32
  nextUse : Option Nat
deriving DecidableEq, Repr

/- The tensor that is on the chip. -/
def Resident.tensor (r : Resident) : TensorId :=
  r.binding.tensor

/- The answer to a request for memory. -/
inductive Allocation where
| placed (address : Nat)
| spill (kind : MemoryKind) (victims : List TensorId)
deriving DecidableEq, Repr

/- What has been counted so far. -/
structure MemoryStats where
  peakLocal : Nat
  peakAccumulator : Nat
  allocations : Nat
  spills : Nat
deriving DecidableEq, Repr

namespace MemoryStats

/- Nothing has been counted. -/
def zero : MemoryStats :=
  { peakLocal := 0, peakAccumulator := 0, allocations := 0, spills := 0 }

/- The most vectors ever used in a memory. -/
def peak
    (s : MemoryStats) : MemoryKind → Nat
| .scratchpad => s.peakLocal
| .accumulator => s.peakAccumulator

/- Raise the peak of a memory. -/
def raisePeak
    (s : MemoryStats)
    (kind : MemoryKind)
    (used : Nat) : MemoryStats :=
  match kind with
  | .scratchpad => { s with peakLocal := max s.peakLocal used }
  | .accumulator => { s with peakAccumulator := max s.peakAccumulator used }

end MemoryStats

------------------------------------------------------------
-- State
------------------------------------------------------------

/- Both memories, with all bindings in the order they were made. -/
structure Memory where
  scratchpad : FreeList
  accumulator : FreeList
  residents : List Resident
  history : List Binding
  clock : Nat
  stats : MemoryStats
deriving DecidableEq, Repr

namespace Memory

/- Sums start from the literal zero. -/
attribute [local instance (high)] Zero.ofOfNat0

/- Memories of given capacities without tensors. -/
def empty
    (localDepth accumulatorDepth : Nat) : Memory :=
  { scratchpad := FreeList.full localDepth
    accumulator := FreeList.full accumulatorDepth
    residents := []
    history := []
    clock := 0
    stats := MemoryStats.zero }

/- The free regions of a memory. -/
def freeList
    (m : Memory) : MemoryKind → FreeList
| .scratchpad => m.scratchpad
| .accumulator => m.accumulator

/- Replace the free regions of a memory. -/
def setFreeList
    (m : Memory)
    (kind : MemoryKind)
    (l : FreeList) : Memory :=
  match kind with
  | .scratchpad => { m with scratchpad := l }
  | .accumulator => { m with accumulator := l }

/- The number of vectors of a memory. -/
def capacity
    (m : Memory)
    (kind : MemoryKind) : Nat :=
  (m.freeList kind).capacity

/- The number of vectors of a memory in use. -/
def used
    (m : Memory)
    (kind : MemoryKind) : Nat :=
  (m.freeList kind).used

/- The entry of a tensor that is on the chip. -/
def resident?
    (m : Memory)
    (t : TensorId) : Option Resident :=
  m.residents.find? (fun r => r.tensor = t)

/- A tensor is on the chip. -/
def IsResident
    (m : Memory)
    (t : TensorId) : Prop :=
  (m.resident? t).isSome = true

instance
    (m : Memory)
    (t : TensorId) :
    Decidable (m.IsResident t) := by
  unfold IsResident
  infer_instance

/- The present binding of a tensor that is on the chip. -/
def binding?
    (m : Memory)
    (t : TensorId) : Option Binding :=
  (m.resident? t).map (·.binding)

/- The present bindings of one memory, by address. -/
def live
    (m : Memory)
    (kind : MemoryKind) : List Binding :=
  sortBy (fun a b => a.address ≤ b.address)
    ((m.residents.map (·.binding)).filter (fun b => b.kind = kind))

/- A layout can be placed without a victim. -/
def Fits
    (m : Memory)
    (layout : VectorLayout)
    (kind : MemoryKind) : Prop :=
  ((m.freeList kind).bestFit layout.depth layout.alignment).isSome = true

instance
    (m : Memory)
    (layout : VectorLayout)
    (kind : MemoryKind) :
    Decidable (m.Fits layout kind) := by
  unfold Fits
  infer_instance

------------------------------------------------------------
-- Victims
------------------------------------------------------------

/- The position of the next use, where no use is furthest. -/
def useRank (r : Resident) : Nat :=
  r.nextUse.getD Count.largest

/- One resident tensor leaves no later than another. -/
def leavesBefore
    (a b : Resident) : Bool :=
  if useRank a = useRank b then
    if a.binding.size = b.binding.size then
      a.tensor.index ≤ b.tensor.index
    else b.binding.size < a.binding.size
  else useRank b < useRank a

/- The tensors that may leave the scratchpad, first victim first. -/
def candidates (m : Memory) : List Resident :=
  sortBy leavesBefore
    (m.residents.filter
      (fun r => r.binding.kind = .scratchpad ∧ r.pins = 0))

/- The shortest run of candidates whose release makes room. -/
def victimsFrom?
    (size alignment : Nat) :
    FreeList → List Resident → Option (List TensorId)
| _, [] => none
| l, r :: rs =>
    let released := (l.release? r.binding.region).getD l
    if (released.bestFit size alignment).isSome then some [r.tensor]
    else
      (victimsFrom? size alignment released rs).map (r.tensor :: ·)

/- The victims of a request that fits no free region. -/
def victims?
    (m : Memory)
    (kind : MemoryKind)
    (size alignment : Nat) : Option (List TensorId) :=
  match kind with
  | .accumulator => none
  | .scratchpad => victimsFrom? size alignment m.scratchpad m.candidates

------------------------------------------------------------
-- Actions
------------------------------------------------------------

/- An action on the memories. -/
abbrev Action (α : Type) :=
  EStateM MemoryError Memory α

/- Fail and leave the memories as given. -/
def refuse
    {α : Type}
    (fault : MemoryFault)
    (m : Memory) : EStateM.Result MemoryError Memory α :=
  .error (.invariant fault) m

/- Bind a tensor to a free region. -/
def place
    (t : TensorId)
    (kind : MemoryKind)
    (region : Region) : Action Unit := fun m =>
  match (m.freeList kind).reserve? region with
  | none => refuse (.notFree kind region) m
  | some l =>
      let binding : Binding :=
        { tensor := t, kind, address := region.start, size := region.length
          allocatedAt := m.clock, releasedAt := none, spilled := false }
      let resident : Resident :=
        { binding, entry := m.history.length, pins := 0, nextUse := none }
      let stats := { m.stats with allocations := m.stats.allocations + 1 }
      .ok ()
        { m.setFreeList kind l with
          residents := m.residents ++ [resident]
          history := m.history ++ [binding]
          stats := stats.raisePeak kind l.used }

/- Place a tensor, or name the victims that make room for it. -/
def allocate
    (t : TensorId)
    (name : String)
    (layout : VectorLayout)
    (kind : MemoryKind) : Action Allocation := fun m =>
  let size := layout.depth
  let full : MemoryError := .outOfMemory name kind size (m.capacity kind)
  if m.IsResident t then refuse (.alreadyResident name t) m
  else if size = 0 ∨ m.capacity kind < size then .error full m
  else
    match (m.freeList kind).bestFit size layout.alignment with
    | some address =>
        match place t kind { start := address, length := size } m with
        | .ok _ m' => .ok (.placed address) m'
        | .error e m' => .error e m'
    | none =>
        match m.victims? kind size layout.alignment with
        | some victims => .ok (.spill kind victims) m
        | none => .error full m

/- Forget a tensor that is on the chip. -/
def forget
    (m : Memory)
    (t : TensorId) : Memory :=
  { m with residents := m.residents.filter (fun r => r.tensor ≠ t) }

/-
  Release the region of a tensor. The tensor is forgotten before
  its pins are looked at.
-/
def release
    (t : TensorId)
    (spilled : Bool) : Action Binding := fun m =>
  match m.resident? t with
  | none => refuse (.notAllocated t) m
  | some r =>
      let m := m.forget t
      if r.pins ≠ 0 then refuse (.releasedPinned t) m
      else
        let b := { r.binding with releasedAt := some m.clock, spilled }
        let m := { m with history := m.history.set r.entry b }
        match (m.freeList b.kind).release? b.region with
        | none => refuse (.releasedTwice b.kind b.region) m
        | some l => .ok b (m.setFreeList b.kind l)

/- Release a tensor after its last use. -/
def free (t : TensorId) : Action Binding :=
  release t false

/- Let a tensor leave the scratchpad for want of room. -/
def spill (t : TensorId) : Action Binding := fun m =>
  if (m.binding? t).any (fun b => b.kind = .accumulator) then
    refuse (.cannotSpill t) m
  else
    match release t true m with
    | .error e m => .error e m
    | .ok b m =>
        .ok b { m with stats := { m.stats with spills := m.stats.spills + 1 } }

/- Change the entry of a tensor that is on the chip. -/
def modifyResident
    (m : Memory)
    (t : TensorId)
    (change : Resident → Resident) : Memory :=
  { m with
    residents := m.residents.map
      (fun r => if r.tensor = t then change r else r) }

/- Keep a tensor on the chip. The count of its pins wraps around. -/
def pin (t : TensorId) : Action Unit := fun m =>
  if m.IsResident t then
    .ok () (m.modifyResident t (fun r => { r with pins := r.pins + 1 }))
  else refuse (.cannotPin t) m

/- Undo one pin of a tensor. -/
def unpin (t : TensorId) : Action Unit := fun m =>
  if (m.resident? t).any (fun r => 0 < r.pins) then
    .ok () (m.modifyResident t (fun r => { r with pins := r.pins - 1 }))
  else refuse (.notPinned t) m

/- Note the next use of a tensor that is on the chip. -/
def setNextUse
    (m : Memory)
    (t : TensorId)
    (nextUse : Option Nat) : Memory :=
  m.modifyResident t (fun r => { r with nextUse })

/- Set the position that new and released bindings are marked with. -/
def setClock
    (m : Memory)
    (position : Nat) : Memory :=
  { m with clock := position }

------------------------------------------------------------
-- Audit
------------------------------------------------------------

/- The first neighbours in a list of bindings that overlap. -/
def firstOverlap? : List Binding → Option (Binding × Binding)
| a :: b :: rest =>
    if a.region.Overlaps b.region then some (a, b)
    else firstOverlap? (b :: rest)
| _ => none

/- The first fault of one memory. -/
def kindFault?
    (m : Memory)
    (kind : MemoryKind) : Option MemoryFault :=
  let live := m.live kind
  match firstOverlap? live with
  | some (a, b) => some (.overlap a.tensor b.tensor kind)
  | none =>
      let held := (live.map (·.size)).sum
      if held = m.used kind then none
      else some (.miscounted kind held (m.used kind))

/-
  Present bindings do not overlap, and they are all that is in
  use.
-/
def audit (m : Memory) : Except MemoryFault Unit :=
  match MemoryKind.all.findSome? m.kindFault? with
  | some fault => .error fault
  | none => .ok ()

end Memory

end Systolic
