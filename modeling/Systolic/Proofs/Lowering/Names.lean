import Systolic.Proofs.Lowering.Steady
import Systolic.Proofs.Schedule.Step

/-
  This file proves that tensors keep their names, and that lowering
  names each of them after a node.

  Key definitions include:
    * `TensorTable.Named`

  Key theorems include:
    * `TensorTable.Named.setSlot`
    * `Lowering.LowersAll.named`
    * `View.Steps.named`
-/

namespace Systolic

------------------------------------------------------------
-- Tables
------------------------------------------------------------

/- The name of every tensor of a table has a property. -/
def TensorTable.Named
    (table : TensorTable)
    (P : String → Prop) : Prop :=
  ∀ t tensor, table.get? t = some tensor → P tensor.name

namespace TensorTable.Named

variable {table : TensorTable} {P : String → Prop}

theorem add
    {tensor : Tensor}
    (hNamed : table.Named P)
    (hName : P tensor.name) :
    (table.add tensor).Named P := by
  intro t found hGet
  rw [get?_add] at hGet
  split at hGet
  case isTrue =>
    cases hGet
    exact hName
  case isFalse => exact hNamed t found hGet

/- A tensor keeps its name when it gets a place in DRAM. -/
theorem setSlot
    (hNamed : table.Named P)
    (t : TensorId)
    (slot : DramSlot)
    (location : Option DramLocation) :
    (table.modify t (·.setSlot slot location)).Named P := by
  intro u found hGet
  rw [get?_modify] at hGet
  split at hGet
  case isFalse => exact hNamed u found hGet
  case isTrue =>
    rcases Option.map_eq_some_iff.mp hGet with ⟨tensor, hTensor, rfl⟩
    have hName : (tensor.setSlot slot location).name = tensor.name := by
      cases slot <;> rfl
    rw [hName]
    exact hNamed u tensor hTensor

/- The name of a number without a tensor is empty. -/
theorem name
    (hNamed : table.Named P)
    (hEmpty : P "")
    (t : TensorId) :
    P (table.name t) := by
  unfold TensorTable.name
  cases hGet : table.get? t with
  | none => exact hEmpty
  | some tensor => exact hNamed t tensor hGet

end TensorTable.Named

------------------------------------------------------------
-- Lowering
------------------------------------------------------------

/- Lowering names tensors after nodes. -/
theorem Lowering.LowersAll.named
    {ν : Type}
    [DecidableEq ν]
    {p : Plan ν}
    {s s' : Lowering ν}
    {done : List ν}
    {P : String → Prop}
    (hNamed : s.bench.tensors.Named P)
    (hNames : ∀ n ∈ done, ∀ name, p.Names n name → P name)
    (hAll : s.LowersAll p done s') :
    s'.bench.tensors.Named P := by
  refine hAll.steady (I := fun w => w.tensors.Named P) ?_ hNamed
  constructor
  case source =>
    intro s n name _ _ _ _ hNode hName _ _ hNamed
    exact TensorTable.Named.setSlot
      (hNamed.add (hNames n hNode name hName)) _ _ _
  case grow =>
    intro s n name _ _ _ _ hNode hName _ hNamed
    exact hNamed.add (hNames n hNode name hName)
  case exported => exact fun _ _ _ _ _ hNamed => hNamed.setSlot _ _ _

------------------------------------------------------------
-- Schedules
------------------------------------------------------------

namespace View

variable {v v' : View} {P : String → Prop}

theorem Step.named
    (hNamed : v.tensors.Named P)
    (hStep : v.Step v') :
    v'.tensors.Named P := by
  cases hStep with
  | leave hLeaves =>
      cases hLeaves with
      | copied => exact hNamed
      | stored => exact hNamed.setSlot _ _ _
  | reload => exact hNamed
  | commit => exact hNamed
  | drop => exact hNamed

/- A schedule keeps the names of tensors. -/
theorem Steps.named
    (hNamed : v.tensors.Named P)
    (hSteps : v.Steps v') :
    v'.tensors.Named P := by
  induction hSteps with
  | refl => exact hNamed
  | tail _ hStep ih => exact hStep.named ih

end View

end Systolic
