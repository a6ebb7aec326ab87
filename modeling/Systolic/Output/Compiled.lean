import Systolic.Program.Lowering
import Systolic.Schedule.Commit
import Systolic.Output.Header
import Systolic.Output.Summary

/-
  This file defines compilation as a whole and its result: the
  schedule of a network on a machine, the history of the memories
  on the chip, the tensors of the host, and the texts about them.

  Key definitions include:
    * `defaultLookahead`
    * `Compiled`
    * `compile`
    * `Compiled.listing`
    * `Compiled.header`
    * `Compiled.checkCompatible`
-/

namespace Systolic

------------------------------------------------------------
-- Compilation
------------------------------------------------------------

/- The window of a scheduler where none is given. -/
def defaultLookahead : Nat :=
  8

/- A compiled network. -/
structure Compiled where
  machine : Machine
  layout : WordLayout
  schedule : Schedule
  bindings : List Binding
  tensors : TensorTable
  host : List HostTensor
  summary : Summary
  fingerprint : String
deriving DecidableEq, Repr

/- What an input or constant is to the host. -/
def sourceKind? : TensorRole → Option HostKind
| .input => some .input
| .constant => some .constant
| .intermediate => none
| .accumulator => none

/- A tensor as the host sees it at a location. -/
def Tensor.atHost
    (t : Tensor)
    (kind : HostKind)
    (location : DramLocation) : HostTensor :=
  { name := t.name, kind, location
    shape := t.layout.shape, depth := t.layout.depth }

/- A tensor that the host provides. -/
def Tensor.source? (t : Tensor) : Option HostTensor :=
  (sourceKind? t.role).bind (fun kind => t.home.map (t.atHost kind))

/- A tensor that the host collects. -/
def Tensor.collected? (t : Tensor) : Option HostTensor :=
  t.exported.map (t.atHost .output)

/- The tensors of the host: those it provides, then those it collects. -/
def TensorTable.host (table : TensorTable) : List HostTensor :=
  table.toList.filterMap Tensor.source? ++
    table.toList.filterMap Tensor.collected?

/- What is kept of a workbench after its program is scheduled. -/
def Compiled.ofBench
    (bench : Workbench)
    (schedule : Schedule) : Compiled :=
  { machine := bench.machine
    layout := bench.layout
    schedule
    bindings := bench.memory.history
    tensors := bench.tensors
    host := bench.tensors.host
    summary := Summary.collect bench.machine schedule bench.memory.stats bench.dram
    fingerprint := bench.machine.fingerprint }

variable {ν : Type} [DecidableEq ν]

/- Order and lower all that named outputs need. -/
def lowerNetwork
    (net : Network ν)
    (outputs : List String)
    (bench : Workbench) :
    Except CompileError (List Operation × Workbench) :=
  match net.order outputs with
  | .error e => .error (.graph e)
  | .ok nodes => lowerNodes net outputs nodes bench

/- Compile all that named outputs of a network need. -/
def compile
    (net : Network ν)
    (outputs : List String)
    (m : Machine)
    (lookahead : Nat) : Except CompileError Compiled :=
  match Workbench.ofMachine m with
  | .error e => .error e
  | .ok bench =>
      match lowerNetwork net (distinct outputs) bench with
      | .error e => .error e
      | .ok (program, bench) =>
          match Workbench.schedule program lookahead bench with
          | .error e _ => .error e
          | .ok schedule bench => .ok (Compiled.ofBench bench schedule)

------------------------------------------------------------
-- Results
------------------------------------------------------------

namespace Compiled

/- The text of a committed operation. -/
def label
    (c : Compiled)
    (op : CommittedOp) : String :=
  op.operation.describe c.tensors

/- The line of the instruction at a place. -/
def instructionLine
    (is : Array Instruction)
    (place : Nat) : Option String :=
  is[place]?.map (fun i => columnText 5 place ++ "  " ++ i.text)

/- The lines of a committed operation in a listing. -/
def opLines
    (c : Compiled)
    (is : Array Instruction)
    (op : CommittedOp) : List String :=
  s!"; {c.label op} [{op.resource.name}] cycles {op.startCycle}..{op.endCycle}" ::
    (List.range' op.firstInstruction
      (op.lastInstruction - op.firstInstruction)).filterMap (instructionLine is)

/- One line for each instruction, under its operation. -/
def listing (c : Compiled) : String :=
  unlines (c.schedule.ops.flatMap (c.opLines c.schedule.instructions.toArray))

/- The header of a program. -/
def header (c : Compiled) : String :=
  renderHeader c.fingerprint c.machine c.layout c.host
    c.schedule.instructions.length

/- Refuse a machine that a program is not compiled for. -/
def checkCompatible
    (c : Compiled)
    (m : Machine) : Except CompileError Unit :=
  if m.fingerprint = c.fingerprint then .ok ()
  else .error (.incompatible c.fingerprint m.fingerprint)

end Compiled

end Systolic
