import Systolic.Machine.Validity
import Systolic.Memory.Basic
import Systolic.Error

/-
  This file defines the workbench of a compilation: the machine
  with its word layout, the tensors, and the state of DRAM and
  of the memories on the chip.

  Key definitions include:
    * `Workbench`
    * `Workbench.ofMachine`
    * `Workbench.addIntermediate`
    * `Workbench.reserveSlot`
    * `Workbench.exportTensor`
-/

namespace Systolic

/- All that changes while a graph is compiled, and its machine. -/
structure Workbench where
  machine : Machine
  layout : WordLayout
  tensors : TensorTable
  dram : Dram
  memory : Memory
deriving DecidableEq, Repr

namespace Workbench

/- A workbench on which nothing has been done. -/
def start
    (machine : Machine)
    (layout : WordLayout) : Workbench :=
  { machine, layout
    tensors := TensorTable.empty
    dram := Dram.empty
    memory := Memory.empty machine.localDepth machine.accumulatorDepth }

/- The workbench of a machine that is accepted. -/
def ofMachine (m : Machine) : Except CompileError Workbench :=
  match m.check with
  | .error fault => .error (.machine fault)
  | .ok layout => .ok (start m layout)

------------------------------------------------------------
-- Tensors
------------------------------------------------------------

/- Add a tensor that has no place in DRAM. -/
def addTensor
    (w : Workbench)
    (name : String)
    (layout : VectorLayout)
    (role : TensorRole)
    (kind : MemoryKind) : TensorId × Workbench :=
  (w.tensors.next,
    { w with
      tensors := w.tensors.add
        { name, layout, role, kind
          home := none, exported := none, spilled := none } })

/- Give a tensor a place in DRAM for one of its slots. -/
def reserveSlot
    (w : Workbench)
    (t : TensorId)
    (slot : DramSlot)
    (bank : DramBank) : Except CompileError (DramLocation × Workbench) :=
  match w.tensors.fetch t with
  | .error e => .error e
  | .ok tensor =>
      match w.dram.allocate bank tensor.layout.depth with
      | .error overflow => .error (.ofDram overflow)
      | .ok (location, dram) =>
          .ok (location,
            { w with
              dram
              tensors := w.tensors.modify t (·.setSlot slot (some location)) })

/- Add a tensor that starts in a DRAM bank. -/
def addHomed
    (w : Workbench)
    (name : String)
    (layout : VectorLayout)
    (role : TensorRole)
    (bank : DramBank) : Except CompileError (TensorId × Workbench) :=
  let (t, added) := w.addTensor name layout role .scratchpad
  match added.reserveSlot t .home bank with
  | .error e => .error e
  | .ok (_, homed) => .ok (t, homed)

/- Add an input, which is read from the first bank. -/
def addInput
    (w : Workbench)
    (name : String)
    (layout : VectorLayout) : Except CompileError (TensorId × Workbench) :=
  w.addHomed name layout .input .dram0

/- Add a constant, which is read from the second bank. -/
def addConstant
    (w : Workbench)
    (name : String)
    (layout : VectorLayout) : Except CompileError (TensorId × Workbench) :=
  w.addHomed name layout .constant .dram1

/- Add a value that is computed into local memory. -/
def addIntermediate
    (w : Workbench)
    (name : String)
    (layout : VectorLayout) : TensorId × Workbench :=
  w.addTensor name layout .intermediate .scratchpad

/- Add a value that is computed into the accumulator memory. -/
def addAccumulator
    (w : Workbench)
    (name : String)
    (layout : VectorLayout) : TensorId × Workbench :=
  w.addTensor name layout .accumulator .accumulator

/- The place where the host finds a tensor, which it gets once. -/
def exportTensor
    (w : Workbench)
    (t : TensorId) : Except CompileError (DramLocation × Workbench) :=
  match w.tensors.fetch t with
  | .error e => .error e
  | .ok tensor =>
      match tensor.exported with
      | some location => .ok (location, w)
      | none => w.reserveSlot t .exported .dram0

end Workbench

end Systolic
