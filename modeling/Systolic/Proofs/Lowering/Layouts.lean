import Systolic.Proofs.Compile.Stages

/-
  This file proves what lowering makes of layouts: every tensor
  takes room and has an alignment, which is one vector in the
  accumulator memory. It also gives the state in which lowering
  ends, for any list of nodes that is lowered on its own.

  Key definitions include:
    * `Tensor.Aligned`

  Key theorems include:
    * `Lowering.LowersAll.aligned`
    * `lowerNodes_ends`
-/

namespace Systolic

variable {ν : Type}

------------------------------------------------------------
-- Alignments
------------------------------------------------------------

namespace VectorLayout

theorem alignment_ofConstant
    {shape : List Nat}
    {size : Nat}
    {l : VectorLayout}
    (hSize : 0 < size)
    (hLayout : ofConstant shape size = .ok l) :
    0 < l.alignment := by
  unfold ofConstant at hLayout
  split at hLayout
  case h_1 => cases hLayout
  case h_2 v hVariable =>
    split at hLayout
    case isTrue =>
      cases hLayout
      rw [(ofVariable_counted hVariable).1]
      exact Nat.one_pos
    case isFalse =>
      split at hLayout
      case h_1 => cases hLayout
      case h_2 rows hRows =>
        unfold bounded at hLayout
        split at hLayout <;> cases hLayout
        exact hSize

end VectorLayout

/- A tensor has an alignment, which is one vector for accumulators. -/
structure Tensor.Aligned (tensor : Tensor) : Prop where
  pos : 0 < tensor.layout.alignment
  accumulator :
    tensor.kind = .accumulator → tensor.layout.alignment = 1

/- Every tensor of a table is aligned. -/
def TensorTable.Aligned (table : TensorTable) : Prop :=
  ∀ t tensor, table.get? t = some tensor → tensor.Aligned

namespace TensorTable.Aligned

variable {table : TensorTable}

theorem add
    {tensor : Tensor}
    (hAligned : table.Aligned)
    (hNew : tensor.Aligned) :
    (table.add tensor).Aligned := by
  intro t found hGet
  rw [get?_add] at hGet
  split at hGet
  case isTrue =>
    cases hGet
    exact hNew
  case isFalse => exact hAligned t found hGet

theorem setSlot
    (hAligned : table.Aligned)
    (t : TensorId)
    (slot : DramSlot)
    (location : Option DramLocation) :
    (table.modify t (·.setSlot slot location)).Aligned := by
  intro u found hGet
  rw [get?_modify] at hGet
  split at hGet
  case isFalse => exact hAligned u found hGet
  case isTrue =>
    rcases Option.map_eq_some_iff.mp hGet with ⟨tensor, hTensor, rfl⟩
    have hOld := hAligned u tensor hTensor
    cases slot <;> exact ⟨hOld.pos, hOld.accumulator⟩

end TensorTable.Aligned

/- Lowering aligns all tensors, on an array that is not empty. -/
theorem Lowering.LowersAll.aligned
    [DecidableEq ν]
    {p : Plan ν}
    {s s' : Lowering ν}
    {done : List ν}
    (hSize : 0 < s.bench.machine.arraySize)
    (hAligned : s.bench.tensors.Aligned)
    (hAll : s.LowersAll p done s') :
    s'.bench.tensors.Aligned := by
  let I : Workbench → Prop := fun w =>
    0 < w.machine.arraySize ∧ w.tensors.Aligned
  have hSteady : p.Steady done I := by
    constructor
    case source =>
      rintro s n _ shape layout _ _ - - hLayout - ⟨hSize, hAligned⟩
      have hPos : 0 < layout.alignment := by
        unfold Plan.sourceLayout at hLayout
        split at hLayout
        case isTrue => exact VectorLayout.alignment_ofConstant hSize hLayout
        case isFalse =>
          rw [(VectorLayout.ofVariable_counted hLayout).1]
          exact Nat.one_pos
      refine ⟨hSize, TensorTable.Aligned.setSlot ?_ _ _ _⟩
      exact hAligned.add ⟨hPos, fun hKind => by cases hKind⟩
    case grow =>
      rintro s n _ _ layout _ _ - - hLayout ⟨hSize, hAligned⟩
      have hOne := (VectorLayout.ofVariable_counted hLayout).1
      exact ⟨hSize, hAligned.add ⟨hOne ▸ Nat.one_pos, fun _ => hOne⟩⟩
    case exported =>
      rintro w _ _ - - ⟨hSize, hAligned⟩
      exact ⟨hSize, hAligned.setSlot _ _ _⟩
  exact (hAll.steady hSteady ⟨hSize, hAligned⟩).2

------------------------------------------------------------
-- Lowered Programs
------------------------------------------------------------

/- The state in which the lowering of a list of nodes ends. -/
structure LowersTo
    {ν : Type}
    [DecidableEq ν]
    (m : Machine)
    (p : Plan ν)
    (layout : WordLayout)
    (s : Lowering ν) : Prop where
  check : m.check = .ok layout
  sound : s.Sound p
  untouched : (Workbench.start m layout).Untouched s.bench
  aligned : s.bench.tensors.Aligned

theorem lowerNodes_ends
    [DecidableEq ν]
    {net : Network ν}
    {outputs : List String}
    {nodes : List ν}
    {m : Machine}
    {program : List Operation}
    {start bench : Workbench}
    (hStart : Workbench.ofMachine m = .ok start)
    (hLower : lowerNodes net outputs nodes start = .ok (program, bench)) :
    ∃ (p : Plan ν) (layout : WordLayout) (s : Lowering ν),
      LowersTo m p layout s ∧ program = s.program ∧
        bench = s.bench := by
  rcases Workbench.ofMachine_ok hStart with ⟨hSize, layout, hCheck, rfl⟩
  rcases lowered_of_lowerNodes hSize hLower with
    ⟨roots, s, ⟨-, hAll, hSound, -⟩, hProgram, hBench⟩
  have hEmpty : (Workbench.start m layout).tensors.Aligned := by
    intro t tensor hGet
    simp [Workbench.start, TensorTable.get?, TensorTable.empty] at hGet
  exact ⟨_, layout, s,
    ⟨hCheck, hSound, hAll.untouched, hAll.aligned hSize hEmpty⟩,
    hProgram, hBench⟩

/- The nodes of a network that is lowered, in their order. -/
theorem exists_lowerNodes
    [DecidableEq ν]
    {net : Network ν}
    {outputs : List String}
    {program : List Operation}
    {start bench : Workbench}
    (hLower : lowerNetwork net outputs start = .ok (program, bench)) :
    ∃ nodes, lowerNodes net outputs nodes start = .ok (program, bench) := by
  unfold lowerNetwork at hLower
  split at hLower
  case h_1 => cases hLower
  case h_2 nodes _ => exact ⟨nodes, hLower⟩

/- Every tensor of a lowered program takes room. -/
theorem LowersTo.depth_pos
    [DecidableEq ν]
    {m : Machine}
    {p : Plan ν}
    {layout : WordLayout}
    {s : Lowering ν}
    (hLowers : LowersTo m p layout s)
    {t : TensorId}
    {tensor : Tensor}
    (hGet : s.bench.tensors.get? t = some tensor) :
    0 < tensor.layout.depth :=
  Nat.mul_pos (hLowers.sound.fresh t tensor hGet).proper.rows_pos
    (hLowers.sound.fresh t tensor hGet).proper.tiles_pos

end Systolic
