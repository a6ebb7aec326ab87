import Mathlib.Data.List.Forall2
import Mathlib.Logic.Relation
import Systolic.Proofs.Memory.Sound
import Systolic.Schedule.Commit

/-
  This file defines the steps of a scheduler, seen without the
  free regions, pins and cycles: a tensor leaves the chip, comes
  back or is dropped, and an operation of the program commits.

  Key definitions include:
    * `View`
    * `View.CanCommit`
    * `View.Step`
    * `View.Steps`
-/

namespace Systolic

/-
  What a scheduler has done so far: all bindings, the tensors
  with their places in DRAM, the operations of the program that
  are pending, and those that are committed, oldest first.
-/
structure View where
  history : List Binding
  tensors : TensorTable
  dram : Dram
  pending : List (Nat × Operation)
  done : List Operation

/- What a run has done so far. -/
def Run.view (run : Run) : View :=
  { history := run.bench.memory.history
    tensors := run.bench.tensors
    dram := run.bench.dram
    pending := run.pending
    done := (run.committed.map (·.operation)).reverse }

namespace View

------------------------------------------------------------
-- Steps
------------------------------------------------------------

/- The number of committed operations. -/
def position (v : View) : Nat :=
  v.done.length

/- A binding that holds its region now. -/
def Present
    (v : View)
    (b : Binding) : Prop :=
  b ∈ v.history ∧ b.releasedAt = none

/- A tensor has a region now. -/
def OnChip
    (v : View)
    (t : TensorId) : Prop :=
  ∃ b, v.Present b ∧ b.tensor = t

/- No pending operation reads a tensor. -/
def Unread
    (v : View)
    (t : TensorId) : Prop :=
  ∀ p ∈ v.pending, t ∉ p.2.reads

/- No pending operation writes a tensor. -/
def Defined
    (v : View)
    (t : TensorId) : Prop :=
  ∀ p ∈ v.pending, p.2.writes ≠ some t

/- Every tensor on the chip is still to be read. -/
def Awaited (v : View) : Prop :=
  ∀ t, v.OnChip t → ¬ v.Unread t

/- A binding has the memory and the size of its tensor. -/
def Suits
    (v : View)
    (b : Binding) : Prop :=
  ∃ tensor, v.tensors.get? b.tensor = some tensor ∧
    b.kind = tensor.kind ∧ b.size = tensor.layout.depth

/- A new binding for a tensor that is off the chip. -/
structure Places
    (v : View)
    (t : TensorId)
    (b : Binding) : Prop where
  tensor_eq : b.tensor = t
  off : ¬ v.OnChip t
  opened : b.releasedAt = none
  unspilled : b.spilled = false
  started : b.allocatedAt = v.position
  suits : v.Suits b
  apart :
    ∀ c, v.Present c → c.kind = b.kind →
      ¬ c.region.Overlaps b.region

/-
  A tensor that is still to be read leaves the scratchpad. One
  without a copy in DRAM is stored first, in a new place at the
  end of the first bank.
-/
inductive Leaves
    (v : View)
    (t : TensorId) : View → Prop
| copied {b : Binding} {tensor : Tensor}
    (hPresent : v.Present b)
    (hTensor : b.tensor = t)
    (hKind : b.kind = .scratchpad)
    (hEntry : v.tensors.get? t = some tensor)
    (hCopy : tensor.dramCopy.isSome)
    (hRead : ¬ v.Unread t) :
    Leaves v t
      { v with history := close v.history t v.position true }
| stored {b : Binding} {tensor : Tensor}
    (hPresent : v.Present b)
    (hTensor : b.tensor = t)
    (hKind : b.kind = .scratchpad)
    (hEntry : v.tensors.get? t = some tensor)
    (hCopy : tensor.dramCopy = none)
    (hFits :
      v.dram.used .dram0 + tensor.layout.depth < Count.limit)
    (hRead : ¬ v.Unread t) :
    Leaves v t
      { v with
        history := close v.history t v.position true
        tensors := v.tensors.modify t
          (·.setSlot .spilled
            (some { bank := .dram0, address := v.dram.used .dram0 }))
        dram := v.dram.setUsed .dram0
          (v.dram.used .dram0 + tensor.layout.depth)
        done := v.done ++ [.spill t] }

/-
  A pending operation can commit: on the array it is the oldest,
  its operands are on the chip, and its result has a region. No
  tensor takes up room for nothing.
-/
structure CanCommit
    (v : View)
    (i : Nat)
    (op : Operation)
    (bs : List Binding) : Prop where
  pending : (i, op) ∈ v.pending
  oldest :
    op.resource = .compute →
      ∀ p ∈ v.pending, p.2.resource = .compute → i ≤ p.1
  reads : ∀ t ∈ op.reads, v.OnChip t
  writes : List.Forall₂ v.Places op.writes.toList bs
  awaited : v.Awaited

/- A view after an operation has committed. -/
def committed
    (v : View)
    (i : Nat)
    (op : Operation)
    (bs : List Binding) : View :=
  { v with
    history := v.history ++ bs
    pending := v.pending.eraseP (fun p => p.1 = i)
    done := v.done ++ [op] }

/- One step of a scheduler. -/
inductive Step (v : View) : View → Prop
| leave {t : TensorId} {v' : View}
    (hLeaves : v.Leaves t v') :
    Step v v'
| reload {t : TensorId} {b : Binding} {tensor : Tensor}
    (hPlaces : v.Places t b)
    (hKind : b.kind = .scratchpad)
    (hEntry : v.tensors.get? t = some tensor)
    (hCopy : tensor.dramCopy.isSome)
    (hDefined : v.Defined t)
    (hRead : ¬ v.Unread t) :
    Step v
      { v with
        history := v.history ++ [b]
        done := v.done ++ [.reload t] }
| commit {i : Nat} {op : Operation} {bs : List Binding}
    (hCommit : v.CanCommit i op bs) :
    Step v (v.committed i op bs)
| drop {t : TensorId}
    (hOnChip : v.OnChip t)
    (hUnread : v.Unread t) :
    Step v
      { v with history := close v.history t (v.position - 1) false }

/- Any number of steps. -/
def Steps : View → View → Prop :=
  Relation.ReflTransGen Step

end View

/- A view of a program of which nothing is committed. -/
def View.start
    (bench : Workbench)
    (program : List Operation) : View :=
  { history := []
    tensors := bench.tensors
    dram := bench.dram
    pending := located program
    done := [] }

end Systolic
