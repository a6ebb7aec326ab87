import Systolic.Tensor.VectorLayout
import Systolic.Tensor.Dram
import Systolic.Memory.Region

/-
  This file defines the tensors of a compilation and the table
  that numbers them.

  Key definitions include:
    * `TensorId`
    * `Tensor`
    * `TensorTable`
    * `TensorTable.add`
    * `TensorTable.lookup?`
-/

namespace Systolic

------------------------------------------------------------
-- Tensors
------------------------------------------------------------

/- The number of a tensor in its table. -/
structure TensorId where
  index : Nat
deriving DecidableEq, Repr

/- The text of a tensor number. -/
def TensorId.text (t : TensorId) : String :=
  s!"t{t.index}"

/- What a tensor is in its program. -/
inductive TensorRole where
| input
| constant
| intermediate
| accumulator
deriving DecidableEq, Repr

/- The name of a role. -/
def TensorRole.name : TensorRole → String
| input => "input"
| constant => "constant"
| intermediate => "intermediate"
| accumulator => "accumulator"

/- The places of a tensor in DRAM. -/
inductive DramSlot where
| home
| exported
| spilled
deriving DecidableEq, Repr

/-
  A tensor with its layout, the memory it is computed in, and
  its places in DRAM: where it comes from, where it is left for
  the host, and where it waits while it is off the chip.
-/
structure Tensor where
  name : String
  layout : VectorLayout
  role : TensorRole
  kind : MemoryKind
  home : Option DramLocation
  exported : Option DramLocation
  spilled : Option DramLocation
deriving DecidableEq, Repr

namespace Tensor

/- A place in DRAM that holds the value of a tensor. -/
def dramCopy (t : Tensor) : Option DramLocation :=
  t.spilled.or t.home

/- Set one of the places in DRAM. -/
def setSlot
    (t : Tensor)
    (slot : DramSlot)
    (location : Option DramLocation) : Tensor :=
  match slot with
  | .home => { t with home := location }
  | .exported => { t with exported := location }
  | .spilled => { t with spilled := location }

end Tensor

------------------------------------------------------------
-- Tables
------------------------------------------------------------

/- The tensors of a compilation, in the order of their numbers. -/
structure TensorTable where
  tensors : Array Tensor
deriving DecidableEq, Repr

namespace TensorTable

/- A table without tensors. -/
def empty : TensorTable :=
  { tensors := #[] }

/- The number of tensors. -/
def size (table : TensorTable) : Nat :=
  table.tensors.size

/- The tensors in the order of their numbers. -/
def toList (table : TensorTable) : List Tensor :=
  table.tensors.toList

/- The tensor of a number. -/
def get?
    (table : TensorTable)
    (t : TensorId) : Option Tensor :=
  table.tensors[t.index]?

/- The name of a tensor, which is empty for a number without one. -/
def name
    (table : TensorTable)
    (t : TensorId) : String :=
  match table.get? t with
  | some tensor => tensor.name
  | none => ""

/- The next number. -/
def next (table : TensorTable) : TensorId :=
  { index := table.size }

/- Give the next number to a tensor. -/
def add
    (table : TensorTable)
    (tensor : Tensor) : TensorTable :=
  { tensors := table.tensors.push tensor }

/- Change the tensor of a number. -/
def modify
    (table : TensorTable)
    (t : TensorId)
    (change : Tensor → Tensor) : TensorTable :=
  { tensors := table.tensors.modify t.index change }

/- The first tensor of a name. -/
def lookup?
    (table : TensorTable)
    (name : String) : Option TensorId :=
  (table.tensors.findIdx? (fun tensor => tensor.name = name)).map TensorId.mk

end TensorTable

end Systolic
