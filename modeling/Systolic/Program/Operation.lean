import Systolic.Lists.Distinct
import Systolic.Machine.Basic
import Systolic.Error

/-
  This file defines the operations of a lowered program, the
  tensors they read and write, the unit that executes them, and
  an estimate of their time.

  Key definitions include:
    * `Operation`
    * `Operation.reads`
    * `Operation.writes`
    * `Operation.cycles`
-/

namespace Systolic

------------------------------------------------------------
-- Resources
------------------------------------------------------------

/- The units that execute operations. -/
inductive Resource where
| load
| compute
| store
deriving DecidableEq, Repr

namespace Resource

/- Every unit. -/
def all : List Resource :=
  [load, compute, store]

/- The name of a unit. -/
def name : Resource → String
| load => "load"
| compute => "compute"
| store => "store"

end Resource

------------------------------------------------------------
-- Operations
------------------------------------------------------------

/- The function applied to a result that leaves the accumulator memory. -/
inductive Activation where
| identity
| relu
deriving DecidableEq, Repr

/-
  An operation on tensors. A product and an accumulation write
  to the accumulator memory, an activation brings their result
  into local memory. A load reads the home of a tensor in DRAM,
  a store writes where the host looks for it, and a spill and a
  reload move it off the chip and back.
-/
inductive Operation where
| load (tensor : TensorId)
| matMul
    (input weights : TensorId)
    (bias : Option TensorId)
    (output : TensorId)
| accumulate (input output : TensorId) (add : Bool)
| activate (input output : TensorId) (activation : Activation)
| store (tensor : TensorId)
| spill (tensor : TensorId)
| reload (tensor : TensorId)
deriving DecidableEq, Repr

namespace Operation

/- The name of an operation. -/
def name : Operation → String
| load _ => "Load"
| matMul .. => "MatMul"
| accumulate .. => "Accumulate"
| activate .. => "Activate"
| store _ => "Store"
| spill _ => "Spill"
| reload _ => "Reload"

/- The unit that executes an operation. -/
def resource : Operation → Resource
| load _ => .load
| reload _ => .load
| matMul .. => .compute
| accumulate .. => .compute
| activate .. => .compute
| store _ => .store
| spill _ => .store

/- The tensor that is moved or computed. -/
def subject : Operation → TensorId
| load t => t
| store t => t
| spill t => t
| reload t => t
| matMul _ _ _ output => output
| accumulate _ output _ => output
| activate _ output _ => output

/- The tensors that must be on the chip, each once. -/
def reads : Operation → List TensorId
| load _ => []
| reload _ => []
| matMul input weights bias _ => distinct (input :: weights :: bias.toList)
| accumulate input output add =>
    if add then distinct [input, output] else [input]
| activate input _ _ => [input]
| store t => [t]
| spill t => [t]

/- A tensor is one of those that must be on the chip. -/
def reading
    (t : TensorId) : Operation → Bool
| load _ => false
| reload _ => false
| matMul input weights bias _ => t = input || t = weights || bias = some t
| accumulate input output add => t = input || (add && t = output)
| activate input _ _ => t = input
| store u => t = u
| spill u => t = u

/- An operation is reading exactly the tensors among its reads. -/
theorem reading_iff_mem_reads
    (t : TensorId)
    (op : Operation) :
    op.reading t = true ↔ t ∈ op.reads := by
  cases op with
  | matMul input weights bias output =>
      cases bias with
      | none => simp [reading, reads, mem_distinct]
      | some u => simp [reading, reads, mem_distinct, or_assoc, eq_comm (a := u)]
  | accumulate input output add =>
      cases add <;> simp [reading, reads, mem_distinct]
  | _ => simp [reading, reads]

/- An operation reads different tensors. -/
theorem nodup_reads (op : Operation) : op.reads.Nodup := by
  cases op with
  | matMul input weights bias output => exact nodup_distinct _
  | accumulate input output add =>
      cases add with
      | true => exact nodup_distinct _
      | false => simp [reads]
  | _ => simp [reads]

/- The tensor that is defined and placed on the chip. -/
def writes : Operation → Option TensorId
| load t => some t
| reload t => some t
| matMul _ _ _ output => some output
| activate _ output _ => some output
| accumulate _ output add => if add then none else some output
| store _ => none
| spill _ => none

/- All tensors that an operation names. -/
def mentions : Operation → List TensorId
| load t => [t]
| reload t => [t]
| store t => [t]
| spill t => [t]
| matMul input weights bias output => output :: input :: weights :: bias.toList
| accumulate input output _ => [output, input]
| activate input output _ => [output, input]

/- An operation with the names of its tensors. -/
def describe
    (table : TensorTable) : Operation → String
| load t => s!"Load({table.name t})"
| store t => s!"Store({table.name t})"
| spill t => s!"Spill({table.name t})"
| reload t => s!"Reload({table.name t})"
| matMul input weights none output =>
    s!"MatMul({table.name output} = {table.name input} x {table.name weights})"
| matMul input weights (some bias) output =>
    s!"MatMul({table.name output} = {table.name input} x " ++
      s!"{table.name weights} + {table.name bias})"
| accumulate input output true =>
    s!"Accumulate({table.name output} += {table.name input})"
| accumulate input output false =>
    s!"Accumulate({table.name output} = {table.name input})"
| activate input output .identity =>
    s!"Activate({table.name output} = {table.name input})"
| activate input output .relu =>
    s!"Activate({table.name output} = relu {table.name input})"

/- Refuse an operation that names a tensor without an entry. -/
def checkMentions
    (table : TensorTable)
    (op : Operation) : Except CompileError Unit :=
  match op.mentions.find? (fun t => (table.get? t).isNone) with
  | some t => .error (.undefined (.noTensor t))
  | none => .ok ()

------------------------------------------------------------
-- Time
------------------------------------------------------------

/- The cycles that move a tensor between DRAM and the chip. -/
def moveCycles
    (m : Machine)
    (table : TensorTable)
    (t : TensorId) : Except CompileError Nat := do
  let tensor ← table.fetch t
  return Count.mulSat tensor.layout.depth m.beatsPerVector

/-
  The estimated cycles of an operation. A transfer takes the
  beats of its vectors. A product loads each weight block and
  streams the rows of an input tile through it, after it has
  copied the bias into every row. An accumulation and an
  activation take one cycle for each vector, and one more for
  each vector that is rectified.
-/
def cycles
    (m : Machine)
    (table : TensorTable)
    (op : Operation) : Except CompileError Nat :=
  if m.busWidth = 0 then .error (.undefined .busWidth)
  else
    match op with
    | load t => moveCycles m table t
    | reload t => moveCycles m table t
    | store t => moveCycles m table t
    | spill t => moveCycles m table t
    | matMul input _ bias output => do
        let x := (← table.fetch input).layout
        let o := (← table.fetch output).layout
        let blocks := Count.mulSat o.tiles x.tiles
        let products := Count.mulSat blocks (Count.addSat m.arraySize x.rows)
        let copies := if bias.isSome then Count.mulSat o.tiles x.rows else 0
        return Count.addSat products copies
    | accumulate input _ _ => do
        return (← table.fetch input).layout.depth
    | activate input _ .identity => do
        return (← table.fetch input).layout.depth
    | activate input _ .relu => do
        return Count.mulSat (← table.fetch input).layout.depth 2

end Operation

end Systolic
