import Systolic.Proofs.Tensor.Table
import Systolic.Program.Operation

/-
  This file defines well-formed programs. An operation finds its
  tensors in the right memories and with matching layouts, reads
  only what is written before it, and writes a tensor that no
  operation before it writes. An accumulator tensor is not read
  any more once it is activated.

  Key definitions include:
    * `Operation.Typed`
    * `WellFormed`
    * `SingleAssignment`

  Key theorems include:
    * `WellFormed.extend`
    * `WellFormed.push`
    * `SingleAssignment.writer_unique`
-/

namespace Systolic

variable {n : Nat} {table : TensorTable} {ops : List Operation}
variable {op : Operation} {t : TensorId}

------------------------------------------------------------
-- Typed Operations
------------------------------------------------------------

/- A tensor of a table that is computed into a given memory. -/
def TensorTable.Holds
    (table : TensorTable)
    (t : TensorId)
    (kind : MemoryKind)
    (tensor : Tensor) : Prop :=
  table.get? t = some tensor ∧ tensor.kind = kind

/- A tensor stays in its memory while the table grows. -/
theorem TensorTable.Holds.extend
    {old new : TensorTable}
    {kind : MemoryKind}
    {tensor : Tensor}
    (hHolds : old.Holds t kind tensor)
    (hExtends : old.Extends new) :
    ∃ grown, new.Holds t kind grown ∧ tensor.Grows grown := by
  rcases hExtends t tensor hHolds.1 with ⟨grown, hGet, hGrows⟩
  exact ⟨grown, ⟨hGet, hGrows.kind_eq.trans hHolds.2⟩, hGrows⟩

namespace Operation

/-
  The tensors of an operation are where it needs them, on an
  array of `n` columns. A product has a row for each row of its
  input and a tile for each tile of its weights, whose rows are
  the columns of the input, padded to whole tiles.
-/
inductive Typed
    (n : Nat)
    (table : TensorTable) : Operation → Prop
| load {t : TensorId} {a : Tensor}
    (hTensor : table.Holds t .scratchpad a)
    (hHome : a.home.isSome) :
    Typed n table (.load t)
| store {t : TensorId} {a : Tensor}
    (hTensor : table.Holds t .scratchpad a)
    (hExported : a.exported.isSome) :
    Typed n table (.store t)
| matMul {input weights output : TensorId} {bias : Option TensorId}
    {a b c : Tensor}
    (hInput : table.Holds input .scratchpad a)
    (hWeights : table.Holds weights .scratchpad b)
    (hOutput : table.Holds output .accumulator c)
    (hRows : c.layout.rows = a.layout.rows)
    (hTiles : c.layout.tiles = b.layout.tiles)
    (hInner : b.layout.rows = a.layout.tiles * n)
    (hBias :
      ∀ t ∈ bias, ∃ d,
        table.Holds t .scratchpad d ∧
          d.layout.depth = c.layout.tiles) :
    Typed n table (.matMul input weights bias output)
| accumulate {input output : TensorId} {add : Bool} {a b : Tensor}
    (hInput : table.Holds input .scratchpad a)
    (hOutput : table.Holds output .accumulator b)
    (hLayout : a.layout = b.layout) :
    Typed n table (.accumulate input output add)
| activate {input output : TensorId} {activation : Activation}
    {a b : Tensor}
    (hInput : table.Holds input .accumulator a)
    (hOutput : table.Holds output .scratchpad b)
    (hLayout : a.layout = b.layout)
    (hHome : b.home = none) :
    Typed n table (.activate input output activation)

/- An operation stays typed while the table grows. -/
theorem Typed.extend
    {n : Nat}
    {old new : TensorTable}
    (hTyped : op.Typed n old)
    (hExtends : old.Extends new) :
    op.Typed n new := by
  cases hTyped with
  | load hTensor hHome =>
      rcases hTensor.extend hExtends with ⟨a, hTensor, hGrows⟩
      exact .load hTensor (hGrows.home_eq ▸ hHome)
  | store hTensor hExported =>
      rcases hTensor.extend hExtends with ⟨a, hTensor, hGrows⟩
      rcases Option.isSome_iff_exists.mp hExported with ⟨l, hLocation⟩
      have hGrown := hGrows.exported l hLocation
      exact .store hTensor (Option.isSome_iff_exists.mpr ⟨l, hGrown⟩)
  | matMul hInput hWeights hOutput hRows hTiles hInner hBias =>
      rcases hInput.extend hExtends with ⟨a, hInput, hA⟩
      rcases hWeights.extend hExtends with ⟨b, hWeights, hB⟩
      rcases hOutput.extend hExtends with ⟨c, hOutput, hC⟩
      rw [← hA.layout_eq, ← hC.layout_eq] at hRows
      rw [← hB.layout_eq, ← hC.layout_eq] at hTiles
      rw [← hA.layout_eq, ← hB.layout_eq] at hInner
      refine .matMul hInput hWeights hOutput hRows hTiles hInner ?_
      intro t hMem
      rcases hBias t hMem with ⟨d, hTensor, hDepth⟩
      rcases hTensor.extend hExtends with ⟨d', hTensor, hD⟩
      rw [← hD.layout_eq, ← hC.layout_eq] at hDepth
      exact ⟨d', hTensor, hDepth⟩
  | accumulate hInput hOutput hLayout =>
      rcases hInput.extend hExtends with ⟨a, hInput, hA⟩
      rcases hOutput.extend hExtends with ⟨b, hOutput, hB⟩
      rw [← hA.layout_eq, ← hB.layout_eq] at hLayout
      exact .accumulate hInput hOutput hLayout
  | activate hInput hOutput hLayout hHome =>
      rcases hInput.extend hExtends with ⟨a, hInput, hA⟩
      rcases hOutput.extend hExtends with ⟨b, hOutput, hB⟩
      rw [← hA.layout_eq, ← hB.layout_eq] at hLayout
      exact .activate hInput hOutput hLayout (hB.home_eq.trans hHome)

/- The tensors of a typed operation are in the table. -/
theorem Typed.get?_mentions
    {n : Nat}
    {table : TensorTable}
    (hTyped : op.Typed n table) :
    ∀ t ∈ op.mentions, ∃ tensor, table.get? t = some tensor := by
  intro t hMem
  cases hTyped with
  | load hTensor =>
      rcases List.mem_singleton.mp hMem with rfl
      exact ⟨_, hTensor.1⟩
  | store hTensor =>
      rcases List.mem_singleton.mp hMem with rfl
      exact ⟨_, hTensor.1⟩
  | matMul hInput hWeights hOutput _ _ _ hBias =>
      simp only [mentions, List.mem_cons, Option.mem_toList] at hMem
      rcases hMem with rfl | rfl | rfl | hMem
      · exact ⟨_, hOutput.1⟩
      · exact ⟨_, hInput.1⟩
      · exact ⟨_, hWeights.1⟩
      · rcases hBias t hMem with ⟨d, hTensor, _⟩
        exact ⟨d, hTensor.1⟩
  | accumulate hInput hOutput =>
      simp only [mentions, List.mem_cons, List.not_mem_nil,
        or_false] at hMem
      rcases hMem with rfl | rfl
      · exact ⟨_, hOutput.1⟩
      · exact ⟨_, hInput.1⟩
  | activate hInput hOutput =>
      simp only [mentions, List.mem_cons, List.not_mem_nil,
        or_false] at hMem
      rcases hMem with rfl | rfl
      · exact ⟨_, hOutput.1⟩
      · exact ⟨_, hInput.1⟩

/- An operation that moves a tensor off the chip or back. -/
def isMove : Operation → Bool
| .spill _ => true
| .reload _ => true
| _ => false

/- The operations of a lowered program move nothing. -/
theorem Typed.isMove_eq_false
    (hTyped : op.Typed n table) :
    op.isMove = false := by
  cases hTyped <;> rfl

end Operation

------------------------------------------------------------
-- Programs
------------------------------------------------------------

/- The tensors that operations write. -/
def written (ops : List Operation) : List TensorId :=
  ops.filterMap Operation.writes

/- The accumulator tensor that an operation activates. -/
def Operation.activates : Operation → Option TensorId
| .activate input _ _ => some input
| _ => none

/- The accumulator tensors that operations activate. -/
def activated (ops : List Operation) : List TensorId :=
  ops.filterMap Operation.activates

@[simp] theorem mem_written_push
    {t : TensorId} :
    t ∈ written (ops ++ [op]) ↔ t ∈ written ops ∨ op.writes = some t := by
  simp [written]

@[simp] theorem mem_activated_push
    {t : TensorId} :
    t ∈ activated (ops ++ [op]) ↔
      t ∈ activated ops ∨ op.activates = some t := by
  simp [activated]

theorem Operation.mem_mentions_of_writes
    (hWrites : op.writes = some t) :
    t ∈ op.mentions := by
  cases op with
  | accumulate input output add =>
      cases add <;> simp_all [writes, mentions]
  | _ => simp_all [writes, mentions]

/- The tensors of an operation are those it reads and writes. -/
theorem Operation.mem_reads_or_writes
    (hMem : t ∈ op.mentions) :
    t ∈ op.reads ∨ op.writes = some t := by
  cases op with
  | matMul input weights bias output =>
      cases bias with
      | none =>
          simp only [mentions, reads, writes, mem_distinct, Option.toList,
            List.mem_cons, List.not_mem_nil, or_false,
            Option.some.injEq] at hMem ⊢
          tauto
      | some u =>
          simp only [mentions, reads, writes, mem_distinct, Option.toList,
            List.mem_cons, List.not_mem_nil, or_false,
            Option.some.injEq] at hMem ⊢
          tauto
  | accumulate input output add =>
      cases add <;>
        simp_all [mentions, reads, writes, mem_distinct, eq_comm, or_comm]
  | _ =>
      simp_all [mentions, reads, writes, eq_comm, or_comm]

/- A member of a list with one more is an old one or the last. -/
theorem getElem?_push_cases
    {α : Type}
    {ops : List α}
    {op o : α}
    {i : Nat}
    (hGet : (ops ++ [op])[i]? = some o) :
    (i < ops.length ∧ ops[i]? = some o) ∨ (i = ops.length ∧ o = op) := by
  rcases Nat.lt_or_ge i ops.length with hBefore | hAfter
  · rw [List.getElem?_append_left hBefore] at hGet
    exact .inl ⟨hBefore, hGet⟩
  · rw [List.getElem?_append_right hAfter, List.getElem?_singleton] at hGet
    split at hGet
    case isFalse => cases hGet
    case isTrue hLast =>
      cases hGet
      exact .inr ⟨by omega, rfl⟩

/- A property of each operation after those before it. -/
theorem forall_take_push
    {α : Type}
    {P : List α → α → Prop}
    {ops : List α}
    {op : α}
    (hOld : ∀ i o, ops[i]? = some o → P (ops.take i) o)
    (hLast : P ops op)
    (i : Nat)
    (o : α)
    (hGet : (ops ++ [op])[i]? = some o) :
    P ((ops ++ [op]).take i) o := by
  rcases getElem?_push_cases hGet with ⟨hBefore, hOldGet⟩ | ⟨rfl, rfl⟩
  · rw [List.take_append_of_le_length (Nat.le_of_lt hBefore)]
    exact hOld i o hOldGet
  · rw [List.take_left]
    exact hLast

/- An operation may follow others. -/
structure Admits
    (n : Nat)
    (table : TensorTable)
    (ops : List Operation)
    (op : Operation) : Prop where
  typed : op.Typed n table
  reads_written : ∀ t ∈ op.reads, t ∈ written ops
  writes_fresh : ∀ t ∈ op.writes, t ∉ written ops
  reads_open : ∀ t ∈ op.reads, t ∉ activated ops

/- Every operation may follow those before it. -/
def WellFormed
    (n : Nat)
    (table : TensorTable)
    (ops : List Operation) : Prop :=
  ∀ i op, ops[i]? = some op → Admits n table (ops.take i) op

namespace WellFormed

theorem nil : WellFormed n table [] := by
  intro i op hGet
  simp at hGet

section

variable (hForm : WellFormed n table ops)
include hForm

/- A program stays well-formed while the table grows. -/
theorem extend
    {new : TensorTable}
    (hExtends : table.Extends new) :
    WellFormed n new ops := by
  intro i op hGet
  have hAdmits := hForm i op hGet
  exact { hAdmits with typed := hAdmits.typed.extend hExtends }

/- An operation that may follow a program extends it. -/
theorem push
    (hAdmits : Admits n table ops op) :
    WellFormed n table (ops ++ [op]) :=
  forall_take_push hForm hAdmits

theorem typed
    (hMem : op ∈ ops) :
    op.Typed n table := by
  rcases List.mem_iff_getElem?.mp hMem with ⟨i, hGet⟩
  exact (hForm i op hGet).typed

/- What a program writes is in its table. -/
theorem get?_written
    (hWritten : t ∈ written ops) :
    ∃ tensor, table.get? t = some tensor := by
  rcases List.mem_filterMap.mp hWritten with ⟨op, hMem, hWrites⟩
  exact (hForm.typed hMem).get?_mentions t
    (Operation.mem_mentions_of_writes hWrites)

/- What a program activates is an accumulator tensor. -/
theorem holds_activated
    (hActivated : t ∈ activated ops) :
    ∃ tensor, table.Holds t .accumulator tensor := by
  rcases List.mem_filterMap.mp hActivated with ⟨op, hMem, hActivates⟩
  cases hForm.typed hMem with
  | activate hInput =>
      cases hActivates
      exact ⟨_, hInput⟩
  | _ => cases hActivates

/- A tensor of the scratchpad is not activated. -/
theorem not_activated
    {tensor : Tensor}
    (hHolds : table.Holds t .scratchpad tensor) :
    t ∉ activated ops := by
  intro hActivated
  rcases hForm.holds_activated hActivated with ⟨other, hOther⟩
  cases hHolds.1.symm.trans hOther.1
  cases hHolds.2.symm.trans hOther.2

end

end WellFormed

------------------------------------------------------------
-- Single Assignment
------------------------------------------------------------

/- Every tensor is written once, and before it is read. -/
def SingleAssignment (ops : List Operation) : Prop :=
  ∀ i op, ops[i]? = some op →
    (∀ t ∈ op.reads, t ∈ written (ops.take i)) ∧
      ∀ t ∈ op.writes, t ∉ written (ops.take i)

theorem WellFormed.singleAssignment
    {n : Nat}
    {table : TensorTable}
    (hForm : WellFormed n table ops) :
    SingleAssignment ops :=
  fun i op hGet =>
    ⟨(hForm i op hGet).reads_written, (hForm i op hGet).writes_fresh⟩

/- What operations before a place name, one of them names. -/
theorem mem_filterMap_take
    {f : Operation → Option TensorId}
    {j : Nat}
    {t : TensorId} :
    t ∈ (ops.take j).filterMap f ↔
      ∃ i op, i < j ∧ ops[i]? = some op ∧ f op = some t := by
  rw [List.mem_filterMap]
  constructor
  · intro hNamed
    rcases hNamed with ⟨op, hMem, hNames⟩
    rcases List.mem_iff_getElem?.mp hMem with ⟨i, hGet⟩
    rw [List.getElem?_take] at hGet
    split at hGet
    case isTrue hBefore => exact ⟨i, op, hBefore, hGet, hNames⟩
    case isFalse => cases hGet
  · intro hNamed
    rcases hNamed with ⟨i, op, hBefore, hGet, hNames⟩
    refine ⟨op, ?_, hNames⟩
    apply List.mem_iff_getElem?.mpr
    exact ⟨i, by rw [List.getElem?_take_of_lt hBefore, hGet]⟩

/- A tensor is written before a place by an operation before it. -/
theorem mem_written_take
    {j : Nat}
    {t : TensorId} :
    t ∈ written (ops.take j) ↔
      ∃ i op, i < j ∧ ops[i]? = some op ∧ op.writes = some t :=
  mem_filterMap_take

/- What a program reads it writes. -/
theorem SingleAssignment.mem_written
    (hSingle : SingleAssignment ops)
    (hMem : op ∈ ops)
    (hReads : t ∈ op.reads) :
    t ∈ written ops := by
  rcases List.mem_iff_getElem?.mp hMem with ⟨i, hGet⟩
  have hBefore := (hSingle i op hGet).1 t hReads
  rcases mem_written_take.mp hBefore with ⟨j, writer, -, hWriter, hWrites⟩
  exact List.mem_filterMap.mpr
    ⟨writer, List.mem_of_getElem? hWriter, hWrites⟩

/- Once an accumulator tensor is activated, it is not read again. -/
theorem WellFormed.le_of_activates
    {n : Nat}
    {table : TensorTable}
    {i j : Nat}
    {op' : Operation}
    (hForm : WellFormed n table ops)
    (hGet : ops[i]? = some op)
    (hActivates : op.activates = some t)
    (hGet' : ops[j]? = some op')
    (hReads : t ∈ op'.reads) :
    j ≤ i := by
  by_contra hAfter
  apply (hForm j op' hGet').reads_open t hReads
  exact mem_filterMap_take.mpr ⟨i, op, by omega, hGet, hActivates⟩

namespace SingleAssignment

theorem push
    (hSingle : SingleAssignment ops)
    (hReads : ∀ t ∈ op.reads, t ∈ written ops)
    (hWrites : ∀ t ∈ op.writes, t ∉ written ops) :
    SingleAssignment (ops ++ [op]) :=
  forall_take_push
    (P := fun before (op : Operation) =>
      (∀ t ∈ op.reads, t ∈ written before) ∧
        ∀ t ∈ op.writes, t ∉ written before)
    hSingle ⟨hReads, hWrites⟩

/- Two operations that write one tensor are the same one. -/
theorem writer_unique
    (hSingle : SingleAssignment ops)
    {i j : Nat}
    {op' : Operation}
    (hGet : ops[i]? = some op)
    (hGet' : ops[j]? = some op')
    (hWrites : op.writes = some t)
    (hWrites' : op'.writes = some t) :
    i = j := by
  rcases Nat.lt_trichotomy i j with hLt | hEq | hGt
  · have hBefore := mem_written_take.mpr ⟨i, op, hLt, hGet, hWrites⟩
    exact absurd hBefore ((hSingle j op' hGet').2 t hWrites')
  · exact hEq
  · have hBefore := mem_written_take.mpr ⟨j, op', hGt, hGet', hWrites'⟩
    exact absurd hBefore ((hSingle i op hGet).2 t hWrites)

/- What an operation reads is written by one before it. -/
theorem exists_writer
    (hSingle : SingleAssignment ops)
    {i : Nat}
    (hGet : ops[i]? = some op)
    (hReads : t ∈ op.reads) :
    ∃ j op', j < i ∧ ops[j]? = some op' ∧ op'.writes = some t :=
  mem_written_take.mp ((hSingle i op hGet).1 t hReads)

end SingleAssignment

end Systolic
